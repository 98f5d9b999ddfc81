import RoutineFlow.Concrete.Node
import RoutineFlow.Syntax.Span

namespace RoutineFlow.Concrete

-- A place in a text: the line feeds before it, and the bytes since the last of them.
structure Point where
  row    : Nat := 0
  column : Nat := 0
deriving DecidableEq, Inhabited

namespace Point

-- The place after one more byte.
def step (p : Point) (byte : UInt8) : Point :=
  if byte = 10 then ⟨p.row + 1, 0⟩ else ⟨p.row, p.column + 1⟩

end Point

structure Source where
  bytes  : ByteArray
  -- The place of each offset, the end of the text included.
  points : Array Point

namespace Source

def ofBytes (bytes : ByteArray) : Source where
  bytes
  points :=
    bytes.data.foldl (fun points byte => points.push ((points.back?.getD {}).step byte)) #[{}]

def ofString (text : String) : Source :=
  ofBytes text.toUTF8

variable (s : Source)

def pointAt (offset : Nat) : Point :=
  s.points[offset]?.getD {}

-- The part of the text that a node covers, or nothing if it cuts a character.
def text (n : Node) : String :=
  (String.fromUTF8? (s.bytes.extract n.row.startByte n.row.endByte)).getD ""

-- Where a node starts.
def startOf (n : Node) : Point :=
  s.pointAt n.row.startByte

-- The range of a node, with lines and columns counted from one.
def span (n : Node) : Syntax.Span :=
  let start := s.pointAt n.row.startByte
  let stop  := s.pointAt n.row.endByte
  ⟨start.row + 1, start.column + 1, stop.row + 1, stop.column + 1⟩

end Source
end RoutineFlow.Concrete
