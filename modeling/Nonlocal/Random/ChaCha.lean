/-!
A stream of random 64-bit words from a short seed.

The words are the keystream of the ChaCha20 block function, two 32-bit words at a time, the first of
them the lower half. A generator is a key and the number of words already taken; taking a word moves
it on by one and changes nothing else.
-/

namespace Nonlocal.ChaCha

/-- The sixteen words that the rounds work on. -/
abbrev Block := Vector UInt32 16

/-- Rotates a word to the left. -/
def rotateLeft (x count : UInt32) : UInt32 :=
  (x <<< count) ||| (x >>> (32 - count))

/-- One quarter round on four positions of the block. -/
def quarterRound (a b c d : Fin 16) (v : Block) : Block :=
  let v := v.set a (v[a] + v[b])
  let v := v.set d (rotateLeft (v[d] ^^^ v[a]) 16)
  let v := v.set c (v[c] + v[d])
  let v := v.set b (rotateLeft (v[b] ^^^ v[c]) 12)
  let v := v.set a (v[a] + v[b])
  let v := v.set d (rotateLeft (v[d] ^^^ v[a]) 8)
  let v := v.set c (v[c] + v[d])
  v.set b (rotateLeft (v[b] ^^^ v[c]) 7)

/-- A round on the columns and a round on the diagonals. -/
def doubleRound (v : Block) : Block :=
  let v := quarterRound 0 4 8 12 v
  let v := quarterRound 1 5 9 13 v
  let v := quarterRound 2 6 10 14 v
  let v := quarterRound 3 7 11 15 v
  let v := quarterRound 0 5 10 15 v
  let v := quarterRound 1 6 11 12 v
  let v := quarterRound 2 7 8 13 v
  quarterRound 3 4 9 14 v

/-- The block before the rounds: four constants, the key, the 64-bit block counter and two zeros. -/
def initial (key : Vector UInt32 8) (counter : UInt64) : Block :=
  #v[0x61707865, 0x3320646e, 0x79622d32, 0x6b206574, key[0], key[1], key[2], key[3], key[4],
    key[5], key[6], key[7], counter.toUInt32, (counter >>> 32).toUInt32, 0, 0]

/-- The keystream block with the given number, after twenty rounds. -/
def block (key : Vector UInt32 8) (counter : UInt64) : Block :=
  let start := initial key counter
  Vector.zipWith (· + ·) start (Nat.repeat doubleRound 10 start)

end Nonlocal.ChaCha

namespace Nonlocal

/-- A stream of random words: its key, and how many words were taken from it. -/
structure Generator where
  key : Vector UInt32 8
  taken : Nat

namespace Generator

/-- The state after one step of the recurrence that expands a seed. -/
def expand (state : UInt64) : UInt64 :=
  state * 6364136223846793005 + 11634580027462260723

/-- The key word of an expansion state: its upper bits, mixed and rotated by the uppermost ones. -/
def keyWord (state : UInt64) : UInt32 :=
  let x := (((state >>> 18) ^^^ state) >>> 27).toUInt32
  let count := (state >>> 59).toUInt32
  (x >>> count) ||| (x <<< ((32 - count) &&& 31))

/-- The generator of a 64-bit seed. -/
def ofSeed (seed : UInt64) : Generator where
  key := Vector.ofFn fun i => keyWord (Nat.repeat expand (i.val + 1) seed)
  taken := 0

/-- The next word of the stream. -/
def next (g : Generator) : UInt64 × Generator :=
  let words := ChaCha.block g.key (UInt64.ofNat (g.taken / 8))
  let i : Fin 8 := ⟨g.taken % 8, Nat.mod_lt _ (by decide)⟩
  let low := words[2 * i.val]
  let high := words[2 * i.val + 1]
  (low.toUInt64 ||| (high.toUInt64 <<< 32), { g with taken := g.taken + 1 })

@[simp] theorem taken_next (g : Generator) : g.next.2.taken = g.taken + 1 := rfl

end Generator

end Nonlocal
