import Rvvk.Lib.Chain
import Rvvk.Lib.Slice
import Rvvk.Lib.LittleEndian
import Rvvk.Lib.Descend
import Rvvk.Bitops
import Rvvk.Memory
import Rvvk.Cpu.Effects
import Rvvk.Cpu.Multiply
import Rvvk.Cpu.Hidden
import Rvvk.Cpu.WordForms
import Rvvk.Cpu.Atomics
import Rvvk.Cpu.Aliasing
import Rvvk.Cpu.Csrs
import Rvvk.Cpu.Reservation
import Rvvk.Translate.Decode16
import Rvvk.Translate.Decode32
import Rvvk.Translate.Reads
import Rvvk.Translate.Shape
import Rvvk.Exec.Packing
import Rvvk.Exec.Emulator
import Rvvk.Exec.Simulation
import Rvvk.Exec.Hidden
import Rvvk.Exec.Transparent
import Rvvk.Isa.Expansion
import Rvvk.Isa.Accepts
import Rvvk.Isa.Values
import Rvvk.Isa.Conforms
import Rvvk.Isa.Refinement
import Rvvk.Isa.Runs
import Rvvk.Isa.Process
import Rvvk.Isa.Progress
import Rvvk.Exec.Stepwise
import Rvvk.Exec.Coherence
import Rvvk.Exec.Traps
import Rvvk.Exec.Table
import Rvvk.Exec.Links
import Rvvk.Exec.Buffer
import Rvvk.Exec.Syscall
import Rvvk.Exec.Variants
import Rvvk.Exec.Calls
import Rvvk.Exec.Loop
import Rvvk.Exec.LoopHidden
import Rvvk.Exec.LoopInvariant
import Rvvk.Exec.Frame
import Rvvk.Exec.Sealed
import Rvvk.Mmap.Placement
import Rvvk.Mmap.Failure
import Rvvk.Mmap.Brk
import Rvvk.Elf.Heap
import Rvvk.Elf.ProcessStack
import Rvvk.Elf.Confined
import Rvvk.Elf.Contained
import Rvvk.Path.Inside
import Rvvk.Options
import Rvvk.Main
import Rvvk.Boot
import Rvvk.Elf.Reading
import Rvvk.Lib.Refine
import Rvvk.Allocations
