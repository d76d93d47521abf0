import Chip8.Instruction.Encode
import Chip8.Keyboard
import Chip8.Machine.Call
import Chip8.Proofs.Bounds
import Chip8.Proofs.Opcodes
import Chip8.Proofs.FaultCauses
import Chip8.Proofs.Hardware.Action
import Chip8.Proofs.Hardware.Execute
import Chip8.Proofs.Hardware.Call
import Chip8.Proofs.Hardware.Image
import Chip8.Proofs.Hardware.Drawing
import Chip8.Proofs.Hardware.Instructions
import Chip8.Proofs.Hardware.Simulation
import Chip8.Proofs.Safety
import Chip8.Proofs.Screen
import Chip8.Proofs.Subroutines
import Chip8.Proofs.Provenance
import Chip8.Proofs.TerminalFaults
import Chip8.Proofs.Footprint
import Chip8.Proofs.Grammar
import Chip8.Proofs.Assembly
import Chip8.Proofs.RandomStream
import Chip8.Proofs.Timers
import Chip8.Proofs.Runs
import Chip8.Proofs.Resets
import Chip8.Proofs.Keys
import Chip8.Proofs.WriteOnly
import Chip8.Proofs.Log
import Chip8.Proofs.Flags
import Chip8.Proofs.Sprites
import Chip8.Proofs.ControlFlow
import Chip8.Proofs.IndexSums
import Chip8.Proofs.Pairs
import Chip8.Proofs.SavedRegisters
import Chip8.Proofs.Redrawing
import Chip8.Proofs.Glyphs
import Chip8.Proofs.KeyWait
import Chip8.Proofs.Loading
import Chip8.Proofs.Alignment
import Chip8.Proofs.Messages
import Chip8.Proofs.Numerals
import Chip8.Proofs.Texts
