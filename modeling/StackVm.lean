import StackVm.Files.FileTree
import StackVm.Main
import StackVm.Proofs.Asm.Placed
import StackVm.Proofs.Staged
import StackVm.Proofs.Cpu.Whole
import StackVm.Proofs.Cpu.Instruction
import StackVm.Proofs.Cpu.Halting
import StackVm.Proofs.Cpu.View
import StackVm.Proofs.Cpu.Running
import StackVm.Proofs.Cpu.Faulting
import StackVm.Proofs.Lowering.Whole
import StackVm.Proofs.Lowering.Fragment
import StackVm.Proofs.Lowering.Frame
import StackVm.Proofs.Lowering.Trace
import StackVm.Proofs.Lowering.Refused
import StackVm.Proofs.Lowering.Emission
import StackVm.Proofs.Output
import StackVm.Proofs.Compile
import StackVm.Proofs.Asm.Reading
import StackVm.Proofs.Asm.Allocation
import StackVm.Proofs.Asm.Linking
import StackVm.Proofs.Lowering.Symbols
import StackVm.Proofs.Names
import StackVm.Proofs.Program
import StackVm.Proofs.Simulation
import StackVm.Proofs.Calls
import StackVm.Proofs.Comparison
import StackVm.Proofs.Lowering.Labels
import StackVm.Proofs.Asm.Variables
import StackVm.Proofs.Asm.Codes
import StackVm.Proofs.Asm.Resolution
import StackVm.Proofs.Statics
import StackVm.Proofs.Cpu.Mnemonic
import StackVm.Proofs.Assembling
import StackVm.Proofs.Spinning
import StackVm.Proofs.StackEffect
import StackVm.Proofs.Session
import StackVm.Proofs.Annotation
import StackVm.Proofs.Eager
import StackVm.Proofs.Source.Words
import StackVm.Proofs.Source.RoundTrip
import StackVm.Proofs.Source.Places
import StackVm.Proofs.Source.Bytes
import StackVm.Proofs.Diagnosis
import StackVm.Proofs.Source.Partition
import StackVm.Proofs.Source.Grammar
import StackVm.Proofs.Independence
import StackVm.Proofs.Overflow
import StackVm.Proofs.Source.Joining
import StackVm.Proofs.Lint
import StackVm.Proofs.Project
import StackVm.Proofs.StackTop
import StackVm.Proofs.Files.FileTree
import StackVm.Proofs.Quoting
import StackVm.Proofs.Searching
import StackVm.Proofs.Files.Order
import StackVm.Proofs.Listing
