namespace FunctorCalls.Blake3

structure Row where
  w0 : UInt32
  w1 : UInt32
  w2 : UInt32
  w3 : UInt32
  deriving DecidableEq

namespace Row

def zip (f : UInt32 → UInt32 → UInt32) (r s : Row) : Row :=
  ⟨f r.w0 s.w0, f r.w1 s.w1, f r.w2 s.w2, f r.w3 s.w3⟩

instance : Add Row := ⟨zip (· + ·)⟩

instance : XorOp Row := ⟨zip (· ^^^ ·)⟩

def rotateBits (r : Row) (n : UInt32) : Row :=
  let rotate (w : UInt32) : UInt32 := w >>> n ||| w <<< (32 - n)
  ⟨rotate r.w0, rotate r.w1, rotate r.w2, rotate r.w3⟩

def turn : Row → Row
  | ⟨w0, w1, w2, w3⟩ => ⟨w1, w2, w3, w0⟩

end Row

structure Grid where
  a : Row
  b : Row
  c : Row
  d : Row
  deriving DecidableEq

namespace Grid

def stirColumns (g : Grid) (x y : Row) : Grid :=
  let a := g.a + g.b + x
  let d := (g.d ^^^ a).rotateBits 16
  let c := g.c + d
  let b := (g.b ^^^ c).rotateBits 12
  let a := a + b + y
  let d := (d ^^^ a).rotateBits 8
  let c := c + d
  let b := (b ^^^ c).rotateBits 7
  ⟨a, b, c, d⟩

def slant (g : Grid) : Grid := ⟨g.a, g.b.turn, g.c.turn.turn, g.d.turn.turn.turn⟩

def unslant (g : Grid) : Grid := ⟨g.a, g.b.turn.turn.turn, g.c.turn.turn, g.d.turn⟩

def round (g m : Grid) : Grid :=
  let g := g.stirColumns ⟨m.a.w0, m.a.w2, m.b.w0, m.b.w2⟩ ⟨m.a.w1, m.a.w3, m.b.w1, m.b.w3⟩
  (g.slant.stirColumns ⟨m.c.w0, m.c.w2, m.d.w0, m.d.w2⟩ ⟨m.c.w1, m.c.w3, m.d.w1, m.d.w3⟩).unslant

/-- The order in which the next round takes the words of the message. -/
def permute : Grid → Grid
  | ⟨⟨m0, m1, m2, m3⟩, ⟨m4, m5, m6, m7⟩, ⟨m8, m9, m10, m11⟩, ⟨m12, m13, m14, m15⟩⟩ =>
    ⟨⟨m2, m6, m3, m10⟩, ⟨m7, m0, m4, m13⟩, ⟨m1, m11, m12, m5⟩, ⟨m9, m14, m15, m8⟩⟩

def rounds : Nat → (g m : Grid) → Grid
  | 0, g, _ => g
  | n + 1, g, m => rounds n (g.round m) m.permute

end Grid

structure Chain where
  left : Row
  right : Row
  deriving DecidableEq

def start : Chain :=
  ⟨⟨0x6A09E667, 0xBB67AE85, 0x3C6EF372, 0xA54FF53A⟩,
   ⟨0x510E527F, 0x9B05688C, 0x1F83D9AB, 0x5BE0CD19⟩⟩

def chunkStart : UInt32 := 1

def chunkEnd : UInt32 := 2

def parent : UInt32 := 4

def root : UInt32 := 8

/-- A compression that is still to be done; the last one is done with the flag of the root. -/
structure Node where
  chain : Chain
  message : Grid
  counter : Nat
  length : Nat
  flags : UInt32

namespace Node

def compress (n : Node) (flag : UInt32) : Chain :=
  let g := Grid.rounds 7
    ⟨n.chain.left, n.chain.right, start.left,
      ⟨.ofNat n.counter, .ofNat (n.counter >>> 32), .ofNat n.length, n.flags ||| flag⟩⟩ n.message
  ⟨g.a ^^^ g.c, g.b ^^^ g.d⟩

def join (left right : Node) : Node :=
  let l := left.compress 0
  let r := right.compress 0
  ⟨start, ⟨l.left, l.right, r.left, r.right⟩, 0, 64, parent⟩

end Node

/-- The word at a place in the input, its lowest byte first; zeros follow the input. -/
def word (bytes : List UInt8) (i : Nat) : UInt32 :=
  let byte (j : Nat) : UInt32 := (bytes.getD (4 * i + j) 0).toUInt32
  byte 0 ||| byte 1 <<< 8 ||| byte 2 <<< 16 ||| byte 3 <<< 24

def row (bytes : List UInt8) (i : Nat) : Row :=
  ⟨word bytes (4 * i), word bytes (4 * i + 1), word bytes (4 * i + 2), word bytes (4 * i + 3)⟩

def message (block : List UInt8) : Grid := ⟨row block 0, row block 1, row block 2, row block 3⟩

def further (width : Nat) (bytes : List UInt8) : List (List UInt8) :=
  (List.range ((bytes.length - 1) / width)).map fun i ↦ (bytes.drop (width * (i + 1))).take width

def chunkBlocks (counter : Nat) (chain : Chain) (flags : UInt32) (block : List UInt8) :
    List (List UInt8) → Node
  | [] => ⟨chain, message block, counter, block.length, flags ||| chunkEnd⟩
  | next :: blocks =>
    let n : Node := ⟨chain, message block, counter, block.length, flags⟩
    chunkBlocks counter (n.compress 0) 0 next blocks

def chunk (counter : Nat) (bytes : List UInt8) : Node :=
  chunkBlocks counter start chunkStart (bytes.take 64) (further 64 bytes)

/-- Joins neighbours; a node without one goes up as it is. -/
def joinPairs : List Node → List Node
  | left :: right :: nodes => left.join right :: joinPairs nodes
  | nodes => nodes

theorem length_joinPairs_le (nodes : List Node) : (joinPairs nodes).length ≤ nodes.length := by
  fun_induction joinPairs nodes with
  | case1 left right nodes ih => simp only [List.length_cons]; omega
  | case2 => exact Nat.le_refl _

/-- The tree that joins the chunks is complete on the left. -/
def tree (node : Node) : List Node → Node
  | [] => node
  | next :: nodes => tree (node.join next) (joinPairs nodes)
termination_by nodes => nodes.length
decreasing_by exact Nat.lt_succ_of_le (length_joinPairs_le nodes)

def wordBytes (w : UInt32) : List UInt8 :=
  [w.toUInt8, (w >>> 8).toUInt8, (w >>> 16).toUInt8, (w >>> 24).toUInt8]

def Row.bytes (r : Row) : List UInt8 :=
  wordBytes r.w0 ++ wordBytes r.w1 ++ wordBytes r.w2 ++ wordBytes r.w3

/-- BLAKE3 with its default key and an output of thirty-two bytes. -/
def hash (bytes : List UInt8) : List UInt8 :=
  let chunks := (further 1024 bytes).mapIdx fun i piece ↦ chunk (i + 1) piece
  let chain := (tree (chunk 0 (bytes.take 1024)) chunks).compress root
  chain.left.bytes ++ chain.right.bytes

theorem length_hash (bytes : List UInt8) : (hash bytes).length = 32 := by
  simp [hash, Row.bytes, wordBytes]

end FunctorCalls.Blake3
