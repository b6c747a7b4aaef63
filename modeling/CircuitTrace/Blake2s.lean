import CircuitTrace.Bytes

namespace CircuitTrace

structure Digest where
  bytes : Vector UInt8 32
  deriving DecidableEq

/-- 64 hexadecimal digits. -/
def Digest.toHex (d : Digest) : String := Bytes.toHex d.bytes.toList

namespace Blake2s

/-- The value that is carried from block to block. -/
abbrev Chain := Vector UInt32 8

/-- The words that one compression works on, and also the words of one block. -/
abbrev Block := Vector UInt32 16

/-- Fractional parts of the square roots of the first eight primes. -/
def iv : Chain :=
  ⟨List.toArray [0x6A09E667, 0xBB67AE85, 0x3C6EF372, 0xA54FF53A,
    0x510E527F, 0x9B05688C, 0x1F83D9AB, 0x5BE0CD19], rfl⟩

/-- The four words that each mixing step of a round touches: first columns, then diagonals. -/
def lanes : List (Fin 16 × Fin 16 × Fin 16 × Fin 16) :=
  [(0, 4, 8, 12), (1, 5, 9, 13), (2, 6, 10, 14), (3, 7, 11, 15),
   (0, 5, 10, 15), (1, 6, 11, 12), (2, 7, 8, 13), (3, 4, 9, 14)]

/-- The two message words for each mixing step, round by round. -/
def schedule : List (List (Fin 16 × Fin 16)) :=
  [[(0, 1), (2, 3), (4, 5), (6, 7), (8, 9), (10, 11), (12, 13), (14, 15)],
   [(14, 10), (4, 8), (9, 15), (13, 6), (1, 12), (0, 2), (11, 7), (5, 3)],
   [(11, 8), (12, 0), (5, 2), (15, 13), (10, 14), (3, 6), (7, 1), (9, 4)],
   [(7, 9), (3, 1), (13, 12), (11, 14), (2, 6), (5, 10), (4, 0), (15, 8)],
   [(9, 0), (5, 7), (2, 4), (10, 15), (14, 1), (11, 12), (6, 8), (3, 13)],
   [(2, 12), (6, 10), (0, 11), (8, 3), (4, 13), (7, 5), (15, 14), (1, 9)],
   [(12, 5), (1, 15), (14, 13), (4, 10), (0, 7), (6, 3), (9, 2), (8, 11)],
   [(13, 11), (7, 14), (12, 1), (3, 9), (5, 0), (15, 4), (8, 6), (2, 10)],
   [(6, 15), (14, 9), (11, 3), (0, 8), (12, 2), (13, 7), (1, 4), (10, 5)],
   [(10, 2), (8, 4), (7, 6), (1, 5), (15, 11), (9, 14), (3, 12), (13, 0)]]

def rotateRight (x : UInt32) (n : UInt32) : UInt32 := (x >>> n) ||| (x <<< (32 - n))

/-- One mixing step on the words of a lane, with two message words. -/
def mix (v : Block) (lane : Fin 16 × Fin 16 × Fin 16 × Fin 16) (x y : UInt32) : Block :=
  let (a, b, c, d) := lane
  let v := v.set a (v[a] + v[b] + x)
  let v := v.set d (rotateRight (v[d] ^^^ v[a]) 16)
  let v := v.set c (v[c] + v[d])
  let v := v.set b (rotateRight (v[b] ^^^ v[c]) 12)
  let v := v.set a (v[a] + v[b] + y)
  let v := v.set d (rotateRight (v[d] ^^^ v[a]) 8)
  let v := v.set c (v[c] + v[d])
  v.set b (rotateRight (v[b] ^^^ v[c]) 7)

def round (m v : Block) (words : List (Fin 16 × Fin 16)) : Block :=
  (lanes.zip words).foldl (fun v step => mix v step.1 m[step.2.1] m[step.2.2]) v

/-- The words of a block. Bytes that are missing at its end count as zero. -/
def blockOf (bytes : Bytes) : Block :=
  Vector.ofFn fun i => UInt32.ofNat (Bytes.toNat ((bytes.drop (4 * i)).take 4))

/-- Takes one block into the chain. `count` is the number of bytes taken in so far, this block
included, and `last` marks the end of the message. -/
def compress (h : Chain) (m : Block) (count : Nat) (last : Bool) : Chain :=
  let start : Block := h ++ iv
  let start := start.set 12 (start[12] ^^^ UInt32.ofNat count)
  let start := start.set 13 (start[13] ^^^ UInt32.ofNat (count >>> 32))
  let start := if last then start.set 14 (~~~ start[14]) else start
  let v := schedule.foldl (round m) start
  Vector.ofFn fun i => h[i] ^^^ v[i.val] ^^^ v[i.val + 8]

/-- Takes in what is left of a message. The last block is the one behind which nothing is left,
so only the empty message has an empty block. -/
def absorb (h : Chain) (count : Nat) (message : Bytes) : Chain :=
  if message.length ≤ 64 then compress h (blockOf message) (count + message.length) true
  else absorb (compress h (blockOf (message.take 64)) (count + 64) false) (count + 64)
    (message.drop 64)
  termination_by message.length
  decreasing_by simp only [List.length_drop]; omega

/-- The chain before the first block names the digest length and the absence of a key. -/
def initial : Chain := iv.set 0 (iv[0] ^^^ 0x01010020)

def hash (message : Bytes) : Digest :=
  let h := absorb initial 0 message
  ⟨Vector.ofFn fun i =>
    (h.get ⟨i.val / 4, by omega⟩ >>> UInt32.ofNat (8 * (i.val % 4))).toUInt8⟩

end Blake2s

end CircuitTrace
