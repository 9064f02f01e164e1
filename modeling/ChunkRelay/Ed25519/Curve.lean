import ChunkRelay.Bytes

/-! The twisted Edwards curve of Ed25519: arithmetic modulo `2 ^ 255 - 19`, points in extended
coordinates, and their 32-byte encoding. -/
namespace ChunkRelay
namespace Ed25519

def p : Nat := Nat.pow 2 255 - 19

/-- The order of the base point. -/
def order : Nat := Nat.pow 2 252 + 27742317777372353535851937790883648493

/-- `b ^ e` modulo `p`, by squaring. -/
def power (b e : Nat) : Nat :=
  if e = 0 then 1
  else
    let h := power (b * b % p) (e / 2)
    if e % 2 = 1 then h * b % p else h
  termination_by e
  decreasing_by omega

def inverse (x : Nat) : Nat := power x (p - 2)

def negate (x : Nat) : Nat := (p - x % p) % p

def d : Nat := 37095705934669439343138083508754565189542113879843219016388785533085940283555

/-- A square root of minus one. -/
def sqrtMinusOne : Nat :=
  19681161376707505956807079304988542015446066515923890162744021073123829784752

/-- The curve point `(x / z, y / z)`, with `t = x * y / z`. -/
structure Point where
  x : Nat
  y : Nat
  z : Nat
  t : Nat

namespace Point

def zero : Point := ⟨0, 1, 1, 0⟩

def affine (x y : Nat) : Point := ⟨x, y, 1, x * y % p⟩

def base : Point := affine
  15112221349535400772501151409588531511454012693041857206046113283949847762202
  46316835694926478169428394003475163141307993866256225615783033603165251855960

def neg (a : Point) : Point := ⟨negate a.x, a.y, a.z, negate a.t⟩

def add (a b : Point) : Point :=
  let m := (a.y + p - a.x) * (b.y + p - b.x) % p
  let n := (a.y + a.x) * (b.y + b.x) % p
  let c := a.t * 2 % p * d % p * b.t % p
  let e := a.z * 2 * b.z % p
  let f := n + p - m
  let g := e + p - c
  let h := e + c
  let k := n + m
  ⟨f * g % p, h * k % p, g * h % p, f * k % p⟩

/-- `n` times the point, by doubling. -/
def mul (n : Nat) (a : Point) : Point :=
  if n = 0 then zero
  else
    let h := mul (n / 2) (a.add a)
    if n % 2 = 1 then h.add a else h
  termination_by n
  decreasing_by omega

/-- `y` in 255 bits, least significant byte first, and the lowest bit of `x` above them. -/
def encode (a : Point) : Bytes :=
  let i := inverse a.z
  let x := a.x * i % p
  let y := a.y * i % p
  Bytes.ofNatLE 32 (y + x % 2 * Nat.pow 2 255)

/-- A square root of `u / v`, if there is one. -/
def sqrtRatio? (u v : Nat) : Option Nat :=
  let v3 := v * v % p * v % p
  let r := u * v3 % p * power (u * v3 % p * v3 % p * v % p) ((p - 5) / 8) % p
  let check := v * (r * r % p) % p
  if check = u % p then some r
  else if check = negate u then some (r * sqrtMinusOne % p)
  else none

/-- Accepts every `y` below `2 ^ 255`, taken modulo `p`, and either sign where `x` is zero. -/
def decode? (b : Bytes) : Option Point := do
  let v := b.toNatLE
  let y := v % Nat.pow 2 255 % p
  let yy := y * y % p
  let r ← sqrtRatio? ((yy + p - 1) % p) ((d * yy + 1) % p)
  return affine (if r % 2 = v / Nat.pow 2 255 % 2 then r else negate r) y

end Point
end Ed25519
end ChunkRelay
