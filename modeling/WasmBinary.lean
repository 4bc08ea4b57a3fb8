import WasmBinary.Command.Run
import WasmBinary.Files
import WasmBinary.FunctionType
import WasmBinary.HexLine
import WasmBinary.HexLine.Display
import WasmBinary.Instruction
import WasmBinary.Json.Spacing
import WasmBinary.Json.Tree
import WasmBinary.Main
import WasmBinary.Module
import WasmBinary.Numeral
import WasmBinary.Proofs.ByteTree.Grouping
import WasmBinary.Proofs.Calls
import WasmBinary.Proofs.Command.Alike
import WasmBinary.Proofs.Command.Display
import WasmBinary.Proofs.Command.Effects
import WasmBinary.Proofs.Command.Integers
import WasmBinary.Proofs.Command.Lookup
import WasmBinary.Proofs.Command.Lossless
import WasmBinary.Proofs.Command.Pipe
import WasmBinary.Proofs.Command.Report
import WasmBinary.Proofs.Command.Saving
import WasmBinary.Proofs.Command.TwoWay
import WasmBinary.Proofs.Command.Vector
import WasmBinary.Proofs.Frame
import WasmBinary.Proofs.FunctionType
import WasmBinary.Proofs.Instruction
import WasmBinary.Proofs.Json.Language
import WasmBinary.Proofs.Json.Stops
import WasmBinary.Proofs.Module
import WasmBinary.Proofs.Numeral.Verdict
import WasmBinary.Proofs.Shape
import WasmBinary.Proofs.Varint.Length
import WasmBinary.Proofs.Varint.Loop
import WasmBinary.Proofs.Varint.Range
import WasmBinary.Proofs.Varint.Session
import WasmBinary.Proofs.Varint.Shortest
import WasmBinary.Proofs.Writers
import WasmBinary.Varint.Grammar
import WasmBinary.Varint.Interval
