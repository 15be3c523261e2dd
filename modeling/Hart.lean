import Hart.Config.Reader
import Hart.Image.Elf
import Hart.Instruction.Disassembly
import Hart.Instruction.Signals
import Hart.Machine.Run
import Hart.Memory.View
import Hart.Statistics.Report
import Hart.Proofs.Heap.Links
import Hart.Proofs.Heap.Allocation
import Hart.Proofs.Heap.Release
import Hart.Proofs.Heap.Resizing
import Hart.Proofs.Heap.Session
import Hart.Proofs.Heap.Isolation
import Hart.Proofs.Heap.WellFormed
import Hart.Proofs.Heap.Walks
import Hart.Proofs.Heap.Reallocation
import Hart.Proofs.Heap.Endings
import Hart.Proofs.Heap.Containment
import Hart.Proofs.Heap.Policy
import Hart.Proofs.Heap.Twins
import Hart.Proofs.Heap.Pointers
import Hart.Proofs.Heap.FirstFit
import Hart.Proofs.Heap.Acceptance
import Hart.Proofs.Heap.Filling
import Hart.Proofs.Heap.Overflow
import Hart.Proofs.Heap.Visits
import Hart.Proofs.Heap.Coalescing
import Hart.Proofs.Heap.Gapless
import Hart.Proofs.Heap.Undoing
import Hart.Proofs.Heap.Freeing
import Hart.Proofs.Memory.Copying
import Hart.Proofs.Image.Layout
import Hart.Proofs.Image.Loading
import Hart.Proofs.Image.Placement
import Hart.Proofs.Image.Flattening
import Hart.Proofs.Image.Acceptance
import Hart.Proofs.Image.Checked
import Hart.Proofs.Image.Fetching
import Hart.Proofs.Isa.Listing
import Hart.Proofs.Isa.Immediates
import Hart.Proofs.Isa.State
import Hart.Proofs.Isa.Arithmetic
import Hart.Proofs.Isa.Decoding
import Hart.Proofs.Isa.Memory
import Hart.Proofs.Isa.Refinement
import Hart.Proofs.Isa.Formats
import Hart.Proofs.Isa.Encodings
import Hart.Proofs.Isa.Datapath
import Hart.Proofs.Text.Lines
import Hart.Proofs.Isa.Assembly
import Hart.Proofs.Isa.Reading
import Hart.Proofs.Alu.Laws
import Hart.Proofs.Alu.Checked
import Hart.Proofs.Memory.ByteMap
import Hart.Proofs.Memory.Policy
import Hart.Proofs.Machine.Service
import Hart.Proofs.Machine.Endings
import Hart.Proofs.Machine.Watching
import Hart.Proofs.Machine.Counting
import Hart.Proofs.Machine.Driving
import Hart.Proofs.Machine.Failing
import Hart.Proofs.Machine.Hosting
import Hart.Proofs.Machine.Invariants
import Hart.Proofs.Machine.Accounting
import Hart.Proofs.Machine.StepLimit
import Hart.Proofs.Machine.Policy
import Hart.Proofs.Machine.Restarting
import Hart.Proofs.Machine.Tidy
import Hart.Proofs.Machine.Answering
