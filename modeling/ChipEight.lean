import ChipEight.Json.Writer
import ChipEight.Proofs.Obstacle
import ChipEight.Proofs.Refinement
import ChipEight.Proofs.WellFormed
import ChipEight.Web.Service
import ChipEight.Proofs.Calls
import ChipEight.Proofs.Notices
import ChipEight.Proofs.Chance
import ChipEight.Proofs.PowerOn
import ChipEight.Proofs.Requests
import ChipEight.Proofs.Service
import ChipEight.Proofs.Controls
import ChipEight.Proofs.Latch
import ChipEight.Proofs.Interference
import ChipEight.Proofs.Worker
import ChipEight.Proofs.Runs
import ChipEight.Proofs.Chronicle
import ChipEight.Proofs.Retry
import ChipEight.Proofs.Answers
import ChipEight.Proofs.Targets
import ChipEight.Proofs.Draws
import ChipEight.Proofs.Timers
import ChipEight.Proofs.Programs
import ChipEight.Proofs.Covering
import ChipEight.Proofs.Overlays
import ChipEight.Proofs.Mnemonics
import ChipEight.Proofs.Files
import ChipEight.Proofs.Contents
import ChipEight.Proofs.Images
import ChipEight.Proofs.Mailbox
import ChipEight.Proofs.Saving
import ChipEight.Proofs.Seeding
