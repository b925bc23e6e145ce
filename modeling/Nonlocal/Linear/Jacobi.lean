import Nonlocal.SquareMatrix

/-!
The spectrum of a Hermitian matrix, by Jacobi rotations in binary64.

Each rotation turns one entry off the diagonal to zero and keeps the spectrum. Sweeps over all such
entries are repeated until nothing is left to turn; the diagonal then holds the eigenvalues.
Entries that vanish against the norm of the matrix are skipped, so a matrix that is diagonal but for
a few entries costs little.

The matrix lives in one flat table, row by row, each entry as its real part and its imaginary part.
Only the diagonal and what is above it are kept up to date: an entry below the diagonal is the
conjugate of the one above.
-/

namespace Nonlocal.Jacobi

/-- The table of a matrix. -/
def table {n : Nat} (m : SquareMatrix Float n) : FloatArray :=
  m.rows.foldl (fun acc row => row.foldl (fun acc z => (acc.push z.re).push z.im) acc) .empty

/-- Where the table holds the entry in row `i` and column `j`; its imaginary part is next to it. -/
@[inline]
def place (n i j : Nat) : Nat :=
  2 * (i * n + j)

/-- A number of the table. -/
@[inline]
def read (a : FloatArray) (i : Nat) : Float :=
  if h : i < a.size then a.get i h else 0.0

/-- Replaces a number of the table. -/
@[inline]
def write (a : FloatArray) (i : Nat) (x : Float) : FloatArray :=
  if h : i < a.size then a.set i x h else a

/-- The modulus of the entry at a place. -/
@[inline]
def modulus (t : FloatArray) (i : Nat) : Float :=
  Scalar.hypot (read t i) (read t (i + 1))

/-- A rotation in the plane of two coordinates: cosine, sine, and the phase of the entry that it
turns to zero. -/
structure Rotation where
  c : Float
  s : Float
  phaseRe : Float
  phaseIm : Float

namespace Rotation

/-- The rotation for diagonal entries `a`, `b` and an entry of modulus `r` above the diagonal. -/
def of (a b re im r : Float) : Rotation :=
  let θ := (b - a) / (2.0 * r)
  let t :=
    if θ.abs > 1.0e150 then 0.5 / θ
    else (if θ < 0.0 then -1.0 else 1.0) / (θ.abs + (θ * θ + 1.0).sqrt)
  let c := 1.0 / (t * t + 1.0).sqrt
  ⟨c, t * c, re / r, im / r⟩

/-- Turns a row's entries in the two columns of the plane. They are at the places `i` and `j`; the
signs are `-1` where the place holds the conjugate. -/
@[inline]
def turn (rot : Rotation) (i j : Nat) (signI signJ : Float) (t : FloatArray) : FloatArray :=
  let xr := read t i
  let xi := signI * read t (i + 1)
  let yr := read t j
  let yi := signJ * read t (j + 1)
  -- the second column with its phase taken off
  let zr := yr * rot.phaseRe + yi * rot.phaseIm
  let zi := yi * rot.phaseRe - yr * rot.phaseIm
  let t := write t i (rot.c * xr - rot.s * zr)
  let t := write t (i + 1) (signI * (rot.c * xi - rot.s * zi))
  let t := write t j (rot.s * xr + rot.c * zr)
  write t (j + 1) (signJ * (rot.s * xi + rot.c * zi))

end Rotation

/-- Turns the entry at `(p, q)` to zero, unless its modulus is within the tolerance already. -/
def eliminate (tolerance : Float) (n p q : Nat) (t : FloatArray) : FloatArray :=
  let r := modulus t (place n p q)
  if tolerance < r then
    let a := read t (place n p p)
    let b := read t (place n q q)
    let rot := Rotation.of a b (read t (place n p q)) (read t (place n p q + 1)) r
    let t := Nat.fold p (fun k _ t => rot.turn (place n k p) (place n k q) 1.0 1.0 t) t
    let t := Nat.fold (q - (p + 1)) (fun d _ t =>
      let k := p + 1 + d
      rot.turn (place n p k) (place n k q) (-1.0) 1.0 t) t
    let t := Nat.fold (n - (q + 1)) (fun d _ t =>
      let k := q + 1 + d
      rot.turn (place n p k) (place n q k) (-1.0) (-1.0) t) t
    let shift := rot.s / rot.c * r
    let t := write (write t (place n p p) (a - shift)) (place n q q) (b + shift)
    write (write t (place n p q) 0.0) (place n p q + 1) 0.0
  else t

/-- Turns every entry above the diagonal once. -/
def sweep (tolerance : Float) (n : Nat) (t : FloatArray) : FloatArray :=
  Nat.fold n (fun p _ t =>
    Nat.fold (n - (p + 1)) (fun d _ t => eliminate tolerance n p (p + 1 + d) t) t) t

/-- Is every entry above the diagonal within the tolerance? -/
def isDiagonal (tolerance : Float) (n : Nat) (t : FloatArray) : Bool :=
  Nat.all n fun p _ =>
    Nat.all (n - (p + 1)) fun d _ => !(tolerance < modulus t (place n p (p + 1 + d)))

/-- Sweeps until the entries off the diagonal are within the tolerance, at most `fuel` times. -/
def diagonalize (tolerance : Float) (n : Nat) : (fuel : Nat) → FloatArray → FloatArray
  | 0, t => t
  | fuel + 1, t =>
    if isDiagonal tolerance n t then t else diagonalize tolerance n fuel (sweep tolerance n t)

/-- The Frobenius norm of a full table, which no rotation changes. -/
def frobenius (t : FloatArray) : Float :=
  (t.foldl (fun acc x => acc + x * x) 0.0).sqrt

/-- The eigenvalues of a Hermitian matrix with their multiplicities. -/
def eigenvalues {n : Nat} (m : SquareMatrix Float n) : List Float :=
  let t := table m
  let t := diagonalize (1.0e-18 * frobenius t) n 40 t
  (List.range n).map fun i => read t (place n i i)

end Nonlocal.Jacobi
