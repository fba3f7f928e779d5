import TroughTrader.Text.Hexadecimal

/-!
# BLAKE3

The unkeyed hash with 32 bytes of output. A message is cut into chunks of 1024 bytes and a chunk
into blocks of 64; each block is compressed into the chaining value of the blocks before it. More
than one chunk makes a tree whose left part holds the largest power of two of whole chunks that
leaves something for the right part. The last compression of the tree is the root.
-/

namespace TroughTrader.Blake3

/-- Eight words that stand for all that was compressed before. -/
abbrev Chain := Vector UInt32 8

abbrev Block := Vector UInt32 16

def initialChain : Chain :=
  #v[0x6a09e667, 0xbb67ae85, 0x3c6ef372, 0xa54ff53a, 0x510e527f, 0x9b05688c, 0x1f83d9ab, 0x5be0cd19]

def rotateRight (w : UInt32) (k : UInt32) : UInt32 := w >>> k ||| w <<< (32 - k)

def mix (s : Block) (a b c d : Fin 16) (x y : UInt32) : Block :=
  let wa := s[a] + s[b] + x
  let wd := rotateRight (s[d] ^^^ wa) 16
  let wc := s[c] + wd
  let wb := rotateRight (s[b] ^^^ wc) 12
  let wa := wa + wb + y
  let wd := rotateRight (wd ^^^ wa) 8
  let wc := wc + wd
  let wb := rotateRight (wb ^^^ wc) 7
  (((s.set a wa).set b wb).set c wc).set d wd

def round (s : Block) (m : Block) : Block :=
  -- columns
  let s := mix s 0 4 8 12 m[0] m[1]
  let s := mix s 1 5 9 13 m[2] m[3]
  let s := mix s 2 6 10 14 m[4] m[5]
  let s := mix s 3 7 11 15 m[6] m[7]
  -- diagonals
  let s := mix s 0 5 10 15 m[8] m[9]
  let s := mix s 1 6 11 12 m[10] m[11]
  let s := mix s 2 7 8 13 m[12] m[13]
  mix s 3 4 9 14 m[14] m[15]

def permute (m : Block) : Block :=
  #v[m[2], m[6], m[3], m[10], m[7], m[0], m[4], m[13],
     m[1], m[11], m[12], m[5], m[9], m[14], m[15], m[8]]

def rounds : Nat → Block → Block → Block
  | 0, s, _ => s
  | n + 1, s, m => rounds n (round s m) (permute m)

structure Node where
  chain : Chain
  block : Block
  counter : UInt64
  length : UInt32
  flags : UInt32

namespace Node

def chunkStart : UInt32 := 1
def chunkEnd : UInt32 := 2
def parent : UInt32 := 4
def root : UInt32 := 8

/-- The first half of the compressed state: the next chaining value, or at the root the hash. -/
def output (n : Node) : Chain :=
  let u := n.chain
  let v := initialChain
  let s : Block := #v[u[0], u[1], u[2], u[3], u[4], u[5], u[6], u[7], v[0], v[1], v[2], v[3],
    n.counter.toUInt32, (n.counter >>> 32).toUInt32, n.length, n.flags]
  let s := rounds 7 s n.block
  #v[s[0] ^^^ s[8], s[1] ^^^ s[9], s[2] ^^^ s[10], s[3] ^^^ s[11],
     s[4] ^^^ s[12], s[5] ^^^ s[13], s[6] ^^^ s[14], s[7] ^^^ s[15]]

def above (left right : Chain) : Node :=
  ⟨initialChain,
   #v[left[0], left[1], left[2], left[3], left[4], left[5], left[6], left[7],
      right[0], right[1], right[2], right[3], right[4], right[5], right[6], right[7]],
   0, 64, parent⟩

end Node

def wordAt (bytes : List UInt8) (i : Nat) : UInt32 :=
  let byte k := (bytes.getD (4 * i + k) 0).toUInt32
  byte 0 ||| byte 1 <<< 8 ||| byte 2 <<< 16 ||| byte 3 <<< 24

def blockOf (bytes : List UInt8) : Block := Vector.ofFn fun i => wordAt bytes i.val

/-- The last node of a chunk, after all blocks before its last one were compressed. -/
def chunkNode (counter : UInt64) (chain : Chain) (start : UInt32) (bytes : List UInt8) : Node :=
  if bytes.length ≤ 64 then
    ⟨chain, blockOf bytes, counter, bytes.length.toUInt32, start ||| Node.chunkEnd⟩
  else
    chunkNode counter (Node.output ⟨chain, blockOf (bytes.take 64), counter, 64, start⟩) 0
      (bytes.drop 64)
termination_by bytes.length
decreasing_by simp only [List.length_drop]; omega

/-- How many bytes go left in a tree over `n > 1024` bytes. -/
def leftSize (n : Nat) : Nat := 1 <<< (n - 1).log2

theorem leftSize_pos (n : Nat) : 0 < leftSize n := by
  rw [leftSize, Nat.one_shiftLeft]
  exact Nat.two_pow_pos _

theorem leftSize_lt {n : Nat} (h : 1 < n) : leftSize n < n := by
  have := Nat.log2_self_le (n := n - 1) (by omega)
  rw [leftSize, Nat.one_shiftLeft]
  omega

/-- The topmost node over a message whose first chunk has the given number. -/
def treeNode (counter : UInt64) (bytes : List UInt8) : Node :=
  if bytes.length ≤ 1024 then chunkNode counter initialChain Node.chunkStart bytes
  else
    let size := leftSize bytes.length
    Node.above (treeNode counter (bytes.take size)).output
      (treeNode (counter + (size / 1024).toUInt64) (bytes.drop size)).output
termination_by bytes.length
decreasing_by
  · have := leftSize_lt (n := bytes.length) (by omega)
    simp only [List.length_take]; omega
  · have := leftSize_pos bytes.length
    simp only [List.length_drop]; omega

def digest (bytes : List UInt8) : Chain :=
  let n := treeNode 0 bytes
  Node.output { n with flags := n.flags ||| Node.root }

def hexWord (w : UInt32) : List Char :=
  ([4, 0, 12, 8, 20, 16, 28, 24] : List UInt32).map fun k =>
    Hexadecimal.digit (w >>> k &&& 15).toNat

def hex (bytes : List UInt8) : String :=
  String.ofList ((digest bytes).toList.flatMap hexWord)

end TroughTrader.Blake3
