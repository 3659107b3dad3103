/-!
The SHA-1 digest of a list of bytes.
-/

namespace HookMachine.Sha1

/-- The five words of the running digest. -/
structure State where
  a : UInt32 := 0x67452301
  b : UInt32 := 0xefcdab89
  c : UInt32 := 0x98badcfe
  d : UInt32 := 0x10325476
  e : UInt32 := 0xc3d2e1f0

/-- Rotates a word to the left by `n` bits, `0 < n < 32`. -/
def rotate (n : UInt32) (x : UInt32) : UInt32 :=
  (x <<< n) ||| (x >>> (32 - n))

/-- The big-endian bytes of a word. -/
def wordBytes (x : UInt32) : List UInt8 :=
  [(x >>> 24).toUInt8, (x >>> 16).toUInt8, (x >>> 8).toUInt8, x.toUInt8]

/-- Words read from big-endian bytes; fewer than four bytes at the end are left out. -/
def words : List UInt8 → List UInt32
  | p :: q :: r :: s :: rest =>
      ((p.toUInt32 <<< 24) ||| (q.toUInt32 <<< 16) ||| (r.toUInt32 <<< 8) ||| s.toUInt32)
        :: words rest
  | _ => []

/-- A message with a one bit, zeros and its length in bits, to a multiple of 64 bytes. -/
def padded (message : List UInt8) : List UInt8 :=
  let length := message.length
  let zeros := (119 - length % 64) % 64
  let bits := (8 * length).toUInt64
  message ++ (0x80 : UInt8) :: List.replicate zeros (0 : UInt8)
    ++ wordBytes (bits >>> 32).toUInt32 ++ wordBytes bits.toUInt32

/-- The 80 words of the schedule that the 16 words of a block start. -/
def schedule (block : Array UInt32) : Array UInt32 :=
  (List.range 64).foldl
    (fun w i =>
      let t := i + 16
      w.push (rotate 1 (w.getD (t - 3) 0 ^^^ w.getD (t - 8) 0 ^^^ w.getD (t - 14) 0 ^^^ w.getD i 0)))
    block

/-- One of the 80 rounds. -/
def round (w : Array UInt32) (s : State) (t : Nat) : State :=
  let (f, k) : UInt32 × UInt32 :=
    if t < 20 then ((s.b &&& s.c) ||| (~~~s.b &&& s.d), 0x5a827999)
    else if t < 40 then (s.b ^^^ s.c ^^^ s.d, 0x6ed9eba1)
    else if t < 60 then ((s.b &&& s.c) ||| (s.b &&& s.d) ||| (s.c &&& s.d), 0x8f1bbcdc)
    else (s.b ^^^ s.c ^^^ s.d, 0xca62c1d6)
  { a := rotate 5 s.a + f + s.e + k + w.getD t 0
    b := s.a
    c := rotate 30 s.b
    d := s.c
    e := s.d }

/-- Adds a block of 16 words to the running digest. -/
def compress (s : State) (block : List UInt32) : State :=
  let w := schedule block.toArray
  let r := (List.range 80).foldl (round w) s
  { a := s.a + r.a, b := s.b + r.b, c := s.c + r.c, d := s.d + r.d, e := s.e + r.e }

/-- Splits into blocks of 16 words; `fuel` as long as the list suffices. -/
def blocks : Nat → List UInt32 → List (List UInt32)
  | 0, _ => []
  | fuel + 1, ws => if ws.isEmpty then [] else ws.take 16 :: blocks fuel (ws.drop 16)

/-- The 20 bytes of the digest. -/
def digest (message : List UInt8) : List UInt8 :=
  let ws := words (padded message)
  let s := (blocks ws.length ws).foldl compress {}
  [s.a, s.b, s.c, s.d, s.e].flatMap wordBytes

end HookMachine.Sha1
