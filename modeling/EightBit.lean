import EightBit.Main
import EightBit.Proofs.Listing.Grammar
import EightBit.Proofs.Machine.Atomicity
import EightBit.Proofs.Machine.Inside
import EightBit.Proofs.Machine.Truncation
import EightBit.Proofs.Program.Evaluation
import EightBit.Proofs.Stack.Meeting
import EightBit.Proofs.Stack.Uniform
import EightBit.Proofs.Logging
import EightBit.Proofs.Program.Subroutine
import EightBit.Proofs.CommandLine.Ending
import EightBit.Proofs.Machine.Comparison
import EightBit.Proofs.Machine.Extension
import EightBit.Proofs.Printing.Decoding
import EightBit.Proofs.Machine.Journal
import EightBit.Proofs.Machine.Progress
import EightBit.Proofs.Machine.Hazards
import EightBit.Proofs.Machine.Addresses
import EightBit.Proofs.Machine.Tracing
import EightBit.Proofs.Listing.Rendering
import EightBit.Proofs.Listing.Editing
import EightBit.Proofs.Writing
import EightBit.Proofs.Program.Renaming
import EightBit.Proofs.Machine.Snapshot
import EightBit.Proofs.Listing.Reporting
