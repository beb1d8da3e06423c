import Downhill.Objective.Basic
import Downhill.Scalar.Binary

/-!
# Noisy objectives

`Objective.noisy f draw` adds a fresh amount of noise to every value of `f`. The noise is drawn
from the memory after the value was computed, so a value that fails draws nothing. Only values are
provided; the derivatives are the defaults, which the noise dominates.

`Random.Stream` is a position in the key stream of the ChaCha cipher with twelve rounds, started
from a 64-bit seed. `Stream.next64` takes the next two words of the stream, low word first, and
`Stream.uniform` turns them into a double that is uniform on `[0, 1)` with 53 random bits. The seed
is expanded to the eight key words by a permuted congruential generator: a linear congruential step
on 64 bits, then the high bits of the state choose a rotation of a 32-bit word.

`Random.wave` is the noise `0.001 sin(2π u)` for the next uniform `u` of such a stream.
-/

namespace Downhill

/-! ### Noise from the memory -/

/-- The objective `f` with a fresh amount of noise added to every value. -/
def Objective.noisy {σ α : Type} [Scalar α] {n : Nat} (f : Objective σ α n) (draw : σ → α × σ) :
    Objective σ α n where
  value x := do
    let base ← f.value x
    let noise ← Run.draw draw
    pure (base + noise)

namespace Random

/-! ### The permutation -/

/-- Rotation of a word to the left. -/
def rotateLeft (x k : UInt32) : UInt32 := x <<< k ||| x >>> (32 - k)

/-- The sixteen words of a block. -/
abbrev Block := Vector UInt32 16

/-- One quarter round on the words at positions `a`, `b`, `c`, `d`. -/
def quarterRound (s : Block) (a b c d : Fin 16) : Block :=
  let xa := s[a] + s[b]
  let xd := rotateLeft (s[d] ^^^ xa) 16
  let xc := s[c] + xd
  let xb := rotateLeft (s[b] ^^^ xc) 12
  let ya := xa + xb
  let yd := rotateLeft (xd ^^^ ya) 8
  let yc := xc + yd
  let yb := rotateLeft (xb ^^^ yc) 7
  (((s.set a ya).set b yb).set c yc).set d yd

/-- A column round followed by a diagonal round. -/
def doubleRound (s : Block) : Block :=
  let s := quarterRound s 0 4 8 12
  let s := quarterRound s 1 5 9 13
  let s := quarterRound s 2 6 10 14
  let s := quarterRound s 3 7 11 15
  let s := quarterRound s 0 5 10 15
  let s := quarterRound s 1 6 11 12
  let s := quarterRound s 2 7 8 13
  quarterRound s 3 4 9 14

/-- The key words expanded from a seed. -/
abbrev Key := Vector UInt32 8

/-- The block of the key stream with the given number: constants, key, a 64-bit block number and
two zero words, permuted by six double rounds and added to themselves. -/
def block (key : Key) (number : UInt64) : Block :=
  let start : Block := #v[0x61707865, 0x3320646e, 0x79622d32, 0x6b206574,
    key[0], key[1], key[2], key[3], key[4], key[5], key[6], key[7],
    number.toUInt32, (number >>> 32).toUInt32, 0, 0]
  let mixed := Nat.repeat doubleRound 6 start
  start.zipWith (· + ·) mixed

/-! ### Seeds -/

/-- One step of the congruential generator that expands a seed. -/
def advanceSeed (s : UInt64) : UInt64 := s * 6364136223846793005 + 11634580027462260723

/-- The word that a state of the congruential generator gives. -/
def seedWord (s : UInt64) : UInt32 :=
  let x := (((s >>> 18) ^^^ s) >>> 27).toUInt32
  let k := (s >>> 59).toUInt32
  x >>> k ||| x <<< ((32 - k) % 32)

/-- The key expanded from a seed: the words of the eight states that follow it. -/
def keyOfSeed (seed : UInt64) : Key :=
  Vector.ofFn fun i => seedWord (Nat.repeat advanceSeed (i + 1) seed)

/-! ### The stream -/

/-- A position in the key stream of a key. -/
structure Stream where
  /-- The key. -/
  key : Key
  /-- How many words have been taken. -/
  taken : Nat

/-- The start of the stream of a seed. -/
def Stream.ofSeed (seed : UInt64) : Stream := ⟨keyOfSeed seed, 0⟩

/-- The word at a position of the key stream. -/
def Stream.word (s : Stream) (position : Nat) : UInt32 :=
  (block s.key (UInt64.ofNat (position / 16)))[position % 16]

/-- The next 64 bits of the stream: two words, the low one first. -/
def Stream.next64 (s : Stream) : UInt64 × Stream :=
  let low := s.word s.taken
  let high := s.word (s.taken + 1)
  (high.toUInt64 <<< 32 ||| low.toUInt64, { s with taken := s.taken + 2 })

/-- A double uniform on `[0, 1)`: the upper 53 of the next 64 bits, over `2 ^ 53`. -/
def Stream.uniform (s : Stream) : Float × Stream :=
  let (bits, rest) := s.next64
  ((bits >>> 11).toFloat * Float.scaleB 1.0 (-53), rest)

/-! ### Waves -/

/-- The circle constant `2π` as a double. -/
def turn : Float := 6.283185307179586

/-- Noise with amplitude one thousandth: `0.001 sin(2π u)` for the next uniform `u`, where the sine
is taken in double precision. -/
def wave {α : Type} [Binary α] (s : Stream) : α × Stream :=
  let (u, rest) := s.uniform
  (1e-3 * Binary.narrow (Float.sin (turn * u)), rest)

/-- Noise from the stream at position `i` of several streams; none if there is no such stream. -/
def waveAt {α : Type} [Binary α] (i : Nat) (streams : Array Stream) : α × Array Stream :=
  match streams[i]? with
  | some s =>
    let (noise, rest) := wave s
    (noise, streams.setIfInBounds i rest)
  | none => (0, streams)

end Random

end Downhill
