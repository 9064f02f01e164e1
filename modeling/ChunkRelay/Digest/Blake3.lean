import ChunkRelay.Bytes

/-! BLAKE3 with 32 bytes of output. The message is cut into chunks of 1024 bytes, each chunk into blocks
of 64; the chunks are the leaves of a binary tree whose left subtrees are complete. -/
namespace ChunkRelay
namespace Blake3

structure Row where
  w0 : UInt32
  w1 : UInt32
  w2 : UInt32
  w3 : UInt32
  deriving DecidableEq, Inhabited

namespace Row

@[inline] def add (a b : Row) : Row := ⟨a.w0 + b.w0, a.w1 + b.w1, a.w2 + b.w2, a.w3 + b.w3⟩

@[inline] def xor (a b : Row) : Row := ⟨a.w0 ^^^ b.w0, a.w1 ^^^ b.w1, a.w2 ^^^ b.w2, a.w3 ^^^ b.w3⟩

@[inline] def rotr (a : Row) (n : UInt32) : Row :=
  ⟨a.w0 >>> n ||| a.w0 <<< (32 - n), a.w1 >>> n ||| a.w1 <<< (32 - n),
    a.w2 >>> n ||| a.w2 <<< (32 - n), a.w3 >>> n ||| a.w3 <<< (32 - n)⟩

@[inline] def turn1 (a : Row) : Row := ⟨a.w1, a.w2, a.w3, a.w0⟩

@[inline] def turn2 (a : Row) : Row := ⟨a.w2, a.w3, a.w0, a.w1⟩

@[inline] def turn3 (a : Row) : Row := ⟨a.w3, a.w0, a.w1, a.w2⟩

def bytes (a : Row) : Bytes :=
  Bytes.ofUInt32LE a.w0 ++ Bytes.ofUInt32LE a.w1 ++ Bytes.ofUInt32LE a.w2 ++ Bytes.ofUInt32LE a.w3

@[simp] theorem size_bytes (a : Row) : a.bytes.size = 16 := by simp [bytes]

end Row

/-- A chaining value. -/
structure Chain where
  lo : Row
  hi : Row
  deriving DecidableEq, Inhabited

def Chain.bytes (c : Chain) : Bytes := c.lo.bytes ++ c.hi.bytes

@[simp] theorem Chain.size_bytes (c : Chain) : c.bytes.size = 32 := by simp [Chain.bytes]

/-- The sixteen words of a block, in the order in which one round uses them: two rows for the columns,
two for the diagonals. -/
structure Block where
  columnsX : Row
  columnsY : Row
  diagonalsX : Row
  diagonalsY : Row
  deriving Inhabited

def Block.ofWords (w0 w1 w2 w3 w4 w5 w6 w7 w8 w9 w10 w11 w12 w13 w14 w15 : UInt32) : Block :=
  ⟨⟨w0, w2, w4, w6⟩, ⟨w1, w3, w5, w7⟩, ⟨w8, w10, w12, w14⟩, ⟨w9, w11, w13, w15⟩⟩

/-- The order of the words in the next round. -/
def Block.permute (m : Block) : Block :=
  .ofWords m.columnsX.w1 m.columnsX.w3 m.columnsY.w1 m.diagonalsX.w1
    m.columnsY.w3 m.columnsX.w0 m.columnsX.w2 m.diagonalsY.w2
    m.columnsY.w0 m.diagonalsY.w1 m.diagonalsX.w2 m.columnsY.w2
    m.diagonalsY.w0 m.diagonalsX.w3 m.diagonalsY.w3 m.diagonalsX.w0

structure State where
  a : Row
  b : Row
  c : Row
  d : Row

@[inline] def State.mix (s : State) (x y : Row) : State :=
  let a := (s.a.add s.b).add x
  let d := (s.d.xor a).rotr 16
  let c := s.c.add d
  let b := (s.b.xor c).rotr 12
  let a := (a.add b).add y
  let d := (d.xor a).rotr 8
  let c := c.add d
  let b := (b.xor c).rotr 7
  ⟨a, b, c, d⟩

def State.round (s : State) (m : Block) : State :=
  let s := s.mix m.columnsX m.columnsY
  let s := State.mix ⟨s.a, s.b.turn1, s.c.turn2, s.d.turn3⟩ m.diagonalsX m.diagonalsY
  ⟨s.a, s.b.turn3, s.c.turn2, s.d.turn1⟩

def State.rounds : Nat → State → Block → State
  | 0, s, _ => s
  | n + 1, s, m => State.rounds n (s.round m) m.permute

def start : Chain :=
  ⟨⟨0x6a09e667, 0xbb67ae85, 0x3c6ef372, 0xa54ff53a⟩, ⟨0x510e527f, 0x9b05688c, 0x1f83d9ab, 0x5be0cd19⟩⟩

def chunkStart : UInt32 := 1
def chunkEnd : UInt32 := 2
def parent : UInt32 := 4
def root : UInt32 := 8

/-- What is left to compress at a node of the tree; only at the root is the last flag known. -/
structure Node where
  chain : Chain
  block : Block
  counter : UInt64
  length : UInt32
  flags : UInt32

def Node.compress (n : Node) (flags : UInt32) : Chain :=
  let s := State.rounds 7
    ⟨n.chain.lo, n.chain.hi, start.lo,
      ⟨n.counter.toUInt32, (n.counter >>> 32).toUInt32, n.length, n.flags ||| flags⟩⟩ n.block
  ⟨s.a.xor s.c, s.b.xor s.d⟩

def Node.chainingValue (n : Node) : Chain := n.compress 0

def Node.digest (n : Node) : Bytes := (n.compress root).bytes

/-- The block at `i`, zeros standing for what lies at or past `stop`. -/
def blockAt (b : Bytes) (i stop : Nat) : Block :=
  if i + 64 ≤ stop then
    .ofWords (b.uint32LE i) (b.uint32LE (i + 4)) (b.uint32LE (i + 8)) (b.uint32LE (i + 12))
      (b.uint32LE (i + 16)) (b.uint32LE (i + 20)) (b.uint32LE (i + 24)) (b.uint32LE (i + 28))
      (b.uint32LE (i + 32)) (b.uint32LE (i + 36)) (b.uint32LE (i + 40)) (b.uint32LE (i + 44))
      (b.uint32LE (i + 48)) (b.uint32LE (i + 52)) (b.uint32LE (i + 56)) (b.uint32LE (i + 60))
  else
    let b := b.slice i (stop - i)
    .ofWords (b.uint32LE 0) (b.uint32LE 4) (b.uint32LE 8) (b.uint32LE 12)
      (b.uint32LE 16) (b.uint32LE 20) (b.uint32LE 24) (b.uint32LE 28)
      (b.uint32LE 32) (b.uint32LE 36) (b.uint32LE 40) (b.uint32LE 44)
      (b.uint32LE 48) (b.uint32LE 52) (b.uint32LE 56) (b.uint32LE 60)

/-- The blocks of one chunk from `i` on, all but the last compressed into `chain`. -/
def chunkFrom (b : Bytes) (counter : UInt64) (stop : Nat) (chain : Chain) (flags : UInt32) (i : Nat) :
    Node :=
  if i + 64 < stop then
    chunkFrom b counter stop
      (Node.chainingValue ⟨chain, blockAt b i stop, counter, 64, flags⟩) 0 (i + 64)
  else ⟨chain, blockAt b i stop, counter, UInt32.ofNat (stop - i), flags ||| chunkEnd⟩
  termination_by stop - i

def chunkNode (b : Bytes) (counter : UInt64) (i stop : Nat) : Node :=
  chunkFrom b counter stop start chunkStart i

def parentNode (l r : Chain) : Node :=
  ⟨start, .ofWords l.lo.w0 l.lo.w1 l.lo.w2 l.lo.w3 l.hi.w0 l.hi.w1 l.hi.w2 l.hi.w3
    r.lo.w0 r.lo.w1 r.lo.w2 r.lo.w3 r.hi.w0 r.hi.w1 r.hi.w2 r.hi.w3, 0, 64, parent⟩

/-- Bytes of the left subtree: the most that a complete tree of chunks can take of `n` bytes while one
byte is left for the right. -/
def leftLength (n : Nat) : Nat := 1024 * Nat.pow 2 (Nat.log2 ((n - 1) / 1024))

theorem leftLength_pos (n : Nat) : 0 < leftLength n :=
  Nat.mul_pos (by decide) (Nat.pow_pos (by decide))

theorem leftLength_lt {n : Nat} (h : 1024 < n) : leftLength n < n := by
  have hk : (n - 1) / 1024 ≠ 0 := by omega
  have := Nat.log2_self_le hk
  simp only [leftLength, Nat.pow_eq]; omega

/-- The tree over `n` bytes from `i`, whose first chunk has the number `counter`. -/
def tree (b : Bytes) (counter : UInt64) (i n : Nat) : Node :=
  if _ : 1024 < n then
    let left := leftLength n
    parentNode (tree b counter i left).chainingValue
      (tree b (counter + UInt64.ofNat (left / 1024)) (i + left) (n - left)).chainingValue
  else chunkNode b counter i (i + n)
  termination_by n
  decreasing_by
    · exact leftLength_lt ‹1024 < n›
    · exact Nat.sub_lt (Nat.lt_trans (by decide) ‹1024 < n›) (leftLength_pos n)

def hash (b : Bytes) : Bytes := (tree b 0 0 b.size).digest

@[simp] theorem size_hash (b : Bytes) : (hash b).size = 32 := by simp [hash, Node.digest]

end Blake3
end ChunkRelay
