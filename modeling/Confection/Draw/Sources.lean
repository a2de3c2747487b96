/-!
# Sources of random words

All chance in this library comes from a source of 32-bit and 64-bit words.  A source is a value: a
word is drawn from it together with the source that is left, so equal sources give equal draws.

There are two kinds of source.  A scripted one gives prescribed words, and a seeded one the stream
of a generator that cannot be told from chance.  `Generator` is either of them.
-/

namespace Confection

/-- A source of random words. -/
class WordSource (σ : Type) where
  /-- A 32-bit word, and the source after it. -/
  word32 : σ → UInt32 × σ
  /-- A 64-bit word, and the source after it. -/
  word64 : σ → UInt64 × σ

/-! ## Prescribed words

A list of 64-bit words is given in order, and after them come the words of a SplitMix64 generator.
A 32-bit word is the low half of the next 64-bit word.
-/

/-- Prescribed words, and the state of the generator for the words after them. -/
structure Scripted where
  words : List UInt64
  state : UInt64

namespace Scripted

/-- The output of SplitMix64 for a state that has been advanced. -/
def mix (z : UInt64) : UInt64 :=
  let z := (z ^^^ (z >>> 30)) * 0xBF58476D1CE4E5B9
  let z := (z ^^^ (z >>> 27)) * 0x94D049BB133111EB
  z ^^^ (z >>> 31)

/-- The next word, and the source after it. -/
def next (s : Scripted) : UInt64 × Scripted :=
  match s.words with
  | w :: words => (w, { s with words })
  | [] =>
    let state := s.state + 0x9E3779B97F4A7C15
    (mix state, { s with state })

end Scripted

instance : WordSource Scripted where
  word32 s := s.next.map UInt64.toUInt32 id
  word64 := Scripted.next

/-! ## The stream of a seed

ChaCha with twelve rounds.  The key is expanded from a 64-bit seed by a PCG generator, the stream is
the blocks for the counters 0, 1, 2, …, and a 64-bit word is two words of the stream, low half first.
-/

/-- The stream of a key: the counter of the next block, and the words of the last one that have not
been given yet. -/
structure ChaCha where
  key : List UInt32
  counter : UInt64
  unread : List UInt32

namespace ChaCha

/-- Rotates to the left. -/
def rotateLeft (x k : UInt32) : UInt32 := (x <<< k) ||| (x >>> (32 - k))

/-- Adds, mixes and rotates four words of the state. -/
def quarterRound (a b c d : Fin 16) (v : Vector UInt32 16) : Vector UInt32 16 :=
  let v := v.set a (v[a] + v[b])
  let v := v.set d (rotateLeft (v[d] ^^^ v[a]) 16)
  let v := v.set c (v[c] + v[d])
  let v := v.set b (rotateLeft (v[b] ^^^ v[c]) 12)
  let v := v.set a (v[a] + v[b])
  let v := v.set d (rotateLeft (v[d] ^^^ v[a]) 8)
  let v := v.set c (v[c] + v[d])
  v.set b (rotateLeft (v[b] ^^^ v[c]) 7)

/-- A round on the columns and a round on the diagonals. -/
def doubleRound (v : Vector UInt32 16) : Vector UInt32 16 :=
  let v := quarterRound 0 4 8 12 v
  let v := quarterRound 1 5 9 13 v
  let v := quarterRound 2 6 10 14 v
  let v := quarterRound 3 7 11 15 v
  let v := quarterRound 0 5 10 15 v
  let v := quarterRound 1 6 11 12 v
  let v := quarterRound 2 7 8 13 v
  quarterRound 3 4 9 14 v

/-- The words that every state starts with. -/
def constants : List UInt32 := [0x61707865, 0x3320646e, 0x79622d32, 0x6b206574]

/-- The words of a state before its rounds: the constants, the key, the counter, and two zeros. -/
def initialState (key : List UInt32) (counter : UInt64) : Vector UInt32 16 :=
  let words := constants ++ key ++ [counter.toUInt32, (counter >>> 32).toUInt32, 0, 0]
  Vector.ofFn fun i => words.getD i 0

/-- The block of the stream for a counter. -/
def block (key : List UInt32) (counter : UInt64) : List UInt32 :=
  let initial := initialState key counter
  (Vector.zipWith (· + ·) (Nat.repeat doubleRound 6 initial) initial).toList

/-- The given number of key words that a PCG generator in this state yields. -/
def keyWords : Nat → UInt64 → List UInt32
  | 0, _ => []
  | n + 1, state =>
    let state := state * 6364136223846793005 + 11634580027462260723
    let x : UInt32 := (((state >>> 18) ^^^ state) >>> 27).toUInt32
    rotateLeft x ((32 : UInt32) - (state >>> 59).toUInt32) :: keyWords n state

/-- The stream for a seed. -/
def ofSeed (seed : UInt64) : ChaCha := ⟨keyWords 8 seed, 0, []⟩

/-- The next word of the stream, and the stream after it. -/
def next (s : ChaCha) : UInt32 × ChaCha :=
  match s.unread with
  | w :: unread => (w, { s with unread })
  | [] =>
    match block s.key s.counter with
    | w :: unread => (w, { s with counter := s.counter + 1, unread })
    | [] => (0, s)

end ChaCha

instance : WordSource ChaCha where
  word32 := ChaCha.next
  word64 s :=
    let (low, s) := s.next
    let (high, s) := s.next
    (high.toUInt64 <<< 32 ||| low.toUInt64, s)

/-! ## Either kind -/

/-- A source of either kind. -/
inductive Generator where
  | scripted (s : Scripted)
  | seeded (s : ChaCha)

instance : WordSource Generator where
  word32
    | .scripted s => (WordSource.word32 s).map id .scripted
    | .seeded s => (WordSource.word32 s).map id .seeded
  word64
    | .scripted s => (WordSource.word64 s).map id .scripted
    | .seeded s => (WordSource.word64 s).map id .seeded

end Confection
