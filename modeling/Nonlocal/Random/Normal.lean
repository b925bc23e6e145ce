import Nonlocal.Scalar

/-!
The quantile function of the standard normal distribution, by rational approximation.

Three quotients of polynomials of degree seven cover the middle of the distribution, its shoulders
and its tails; each is correct to about sixteen digits.
-/

namespace Nonlocal.Normal

/-- A polynomial by its coefficients, the constant first. -/
def polynomial (coefficients : List Float) (x : Float) : Float :=
  coefficients.foldr (fun c acc => c + x * acc) 0.0

/-- The approximation within `0.425` of the median, in the distance from it. -/
def middle (q : Float) : Float :=
  let r := 0.180625 - q * q
  q * polynomial
      [3.3871328727963666080, 133.14166789178437745, 1971.5909503065514427, 13731.693765509461125,
        45921.953931549871457, 67265.770927008700853, 33430.575583588128105,
        2509.0809287301226727] r
    / polynomial
      [1.0, 42.313330701600911252, 687.18700749205790830, 5394.1960214247511077,
        21213.794301586595867, 39307.895800092710610, 28729.085735721942674,
        5226.4952788528545610] r

/-- The approximation on the shoulders, in the root of the logarithm of the tail probability. -/
def shoulder (r : Float) : Float :=
  polynomial
      [1.42343711074968357734, 4.63033784615654529590, 5.76949722146069140550,
        3.64784832476320460504, 1.27045825245236838258, 0.241780725177450611770,
        0.0227238449892691845833, 0.000774545014278341407640] r
    / polynomial
      [1.0, 2.05319162663775882187, 1.67638483018380384940, 0.689767334985100004550,
        0.148103976427480074590, 0.0151986665636164571966, 0.000547593808499534494600,
        0.00000000105075007164441684324] r

/-- The approximation in the tails. -/
def tail (r : Float) : Float :=
  polynomial
      [6.65790464350110377720, 5.46378491116411436990, 1.78482653991729133580,
        0.296560571828504891230, 0.0265321895265761230930, 0.00124266094738807843860,
        0.0000271155556874348757815, 0.000000201033439929228813265] r
    / polynomial
      [1.0, 0.599832206555887937690, 0.136929880922735805310, 0.0148753612908506148525,
        0.000786869131145613259100, 0.0000184631831751005468180, 0.000000142151175831644588870,
        0.00000000000000204426310338993978564] r

/-- The value below which a standard normal variable lies with probability `p`. -/
def quantile (p : Float) : Float :=
  let q := p - 0.5
  if q.abs ≤ 0.425 then middle q
  else
    let r := (-(if q < 0.0 then p else 1.0 - p).log).sqrt
    let x := if r ≤ 5.0 then shoulder (r - 1.6) else tail (r - 5.0)
    if q < 0.0 then -x else x

end Nonlocal.Normal
