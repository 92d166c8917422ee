import Mathlib.Algebra.Group.Int.Defs
import Bearmail.Expr.Syntax

/-!
# Values of expressions

`Variable` of `common/src/expr/mod.rs` and its operators of
`common/src/expr/eval.rs`. A string is what it says, owned or borrowed. How a
float is written is a parameter: once as `Display` writes it and once as
`to_compact_string` does.
-/

namespace Bearmail.Expr

open Imap (utf8 isAsciiDigit readDigits)

inductive Variable where
  | string (s : String)
  | integer (n : Int64)
  | float (f : Float)
  | array (items : List Variable)
  | constant (c : ExpressionConstant)

instance : Inhabited Variable := ⟨.string ""⟩

structure Floats where
  display : Float → String
  compact : Float → String

/-! ## Numbers -/

def parseI64 (text : List UInt8) : Option Int64 :=
  let negative := text.head? = some 45
  let digits := if text.head? = some 43 ∨ negative then text.tail else text
  if digits = [] then none
  else
    match readDigits 0 digits with
    | none => none
    | some n =>
      if negative then if n ≤ 2 ^ 63 then some (Int64.ofInt (-n)) else none
      else if n < 2 ^ 63 then some (Int64.ofNat n) else none

def lower (text : List UInt8) : List UInt8 := text.map Imap.toAsciiLowercase

/-- The exponent after `e`, an empty rest being none. -/
def parseExponent (text : List UInt8) : Option Int :=
  match text with
  | [] => some 0
  | e :: text =>
    let digits := if text.head? = some 43 ∨ text.head? = some 45 then text.tail else text
    if Imap.toAsciiLowercase e = 101 ∧ digits ≠ [] then
      (readDigits 0 digits).map fun n => if text.head? = some 45 then -n else n
    else none

def scientific (mantissa : Nat) (exponent : Int) : Float :=
  Float.ofScientific mantissa (decide (exponent < 0)) exponent.natAbs

def parseF64 (text : List UInt8) : Option Float :=
  let signed := text.head? = some 43 ∨ text.head? = some 45
  let body := if signed then text.tail else text
  let value :=
    if lower body = utf8 "inf" ∨ lower body = utf8 "infinity" then some (1 / 0)
    else if lower body = utf8 "nan" then some (0 / 0)
    else
      let whole := body.takeWhile isAsciiDigit
      let rest := body.dropWhile isAsciiDigit
      let fraction := if rest.head? = some 46 then rest.tail.takeWhile isAsciiDigit else []
      let exponent := if rest.head? = some 46 then rest.tail.dropWhile isAsciiDigit else rest
      if whole = [] ∧ fraction = [] then none
      else do
        let mantissa ← readDigits 0 (whole ++ fraction)
        let e ← parseExponent exponent
        return scientific mantissa (e - fraction.length)
  if text.head? = some 45 then value.map fun f => -f else value

def saturating (n : Int) : Int64 := Int64.ofInt (max (-2 ^ 63) (min n (2 ^ 63 - 1)))

def ofBool (b : Bool) : Variable := .integer (if b then 1 else 0)

namespace Variable

def isEmptyString : Variable → Bool
  | .string s => s.isEmpty
  | _ => false

def toBool : Variable → Bool
  | .float f => f != 0
  | .integer n => n != 0
  | .string s => !s.isEmpty
  | .array a => !a.isEmpty
  | .constant _ => true

def parseNumber : Variable → Variable
  | .string s =>
    if s.isEmpty then .integer 0
    else
      match parseI64 (utf8 s) with
      | some n => .integer n
      | none =>
        match parseF64 (utf8 s) with
        | some f => .float f
        | none => .integer 0
  | .integer n => .integer n
  | .float f => .float f
  | .array items => ofBool items.isEmpty
  | .constant _ => .integer 0

def toUsize : Variable → Option Nat
  | .integer n => some n.toUInt64.toNat
  | .float f => some f.toUInt64.toNat
  | .string s => if s.isEmpty then none else Imap.fromStr 64 (utf8 s)
  | _ => none

def intoArray : Variable → List Variable
  | .array items => items
  | v => if v.isEmptyString then [] else [v]

mutual

def display (floats : Floats) : Variable → String
  | .string s => s
  | .integer n => toString n.toInt
  | .float f => floats.display f
  | .array [] => ""
  | .array (item :: items) => item.display floats ++ displayRest floats items
  | .constant c => c.asStr

def displayRest (floats : Floats) : List Variable → String
  | [] => ""
  | item :: items => "\n" ++ item.display floats ++ displayRest floats items

end

def itemString (floats : Floats) : Variable → String
  | .string s => s
  | .integer n => toString n.toInt
  | .float f => floats.compact f
  | .array _ => ""
  | .constant c => c.asStr

def intoString (floats : Floats) : Variable → String
  | .array items =>
    items.foldl (fun result item =>
      (if result.isEmpty then result else result ++ "\r\n") ++ item.itemString floats) ""
  | v => v.itemString floats

/-! ## Comparison -/

def eqNumber : Variable → Variable → Bool
  | .integer a, .integer b => a == b
  | .float a, .float b => a == b
  | .integer a, .float b => a.toFloat == b
  | .float a, .integer b => b.toFloat == a
  | _, _ => false

mutual

def eq : Variable → Variable → Bool
  | .string a, .string b => a == b
  | .string a, .integer b => eqNumber (parseNumber (.string a)) (.integer b)
  | .string a, .float b => eqNumber (parseNumber (.string a)) (.float b)
  | .integer a, .string b => eqNumber (.integer a) (parseNumber (.string b))
  | .float a, .string b => eqNumber (.float a) (parseNumber (.string b))
  | .array a, .array b => eqItems a b
  | a, b => eqNumber a b

def eqItems : List Variable → List Variable → Bool
  | [], [] => true
  | a :: as, b :: bs => a.eq b && eqItems as bs
  | _, _ => false

end

def cmpFloat (a b : Float) : Option Ordering :=
  if a < b then some .lt else if b < a then some .gt else if a == b then some .eq else none

def cmpNumber : Variable → Variable → Option Ordering
  | .integer a, .integer b => some (compare a.toInt b.toInt)
  | .float a, .float b => cmpFloat a b
  | .integer a, .float b => cmpFloat a.toFloat b
  | .float a, .integer b => cmpFloat a b.toFloat
  | _, _ => none

def constantId (c : ExpressionConstant) : Nat := ExpressionConstant.all.idxOf c

mutual

def partialCmp : Variable → Variable → Option Ordering
  | .string a, .string b => some (compare a b)
  | .string a, .integer b => cmpNumber (parseNumber (.string a)) (.integer b)
  | .string a, .float b => cmpNumber (parseNumber (.string a)) (.float b)
  | .integer a, .string b => cmpNumber (.integer a) (parseNumber (.string b))
  | .float a, .string b => cmpNumber (.float a) (parseNumber (.string b))
  | .array a, .array b => partialCmpItems a b
  | .array _, _ | .string _, _ => some .gt
  | .constant a, .constant b => some (compare (constantId a) (constantId b))
  | _, .array _ | _, .constant _ | .constant _, _ => some .lt
  | a, b => cmpNumber a b

def partialCmpItems : List Variable → List Variable → Option Ordering
  | [], [] => some .eq
  | [], _ :: _ => some .lt
  | _ :: _, [] => some .gt
  | a :: as, b :: bs =>
    match a.partialCmp b with
    | some .eq => partialCmpItems as bs
    | other => other

end

/-! ## Operators -/

def opAdd (floats : Floats) : Variable → Variable → Variable
  | .integer a, .integer b => .integer (saturating (a.toInt + b.toInt))
  | .float a, .float b => .float (a + b)
  | .integer i, .float f | .float f, .integer i => .float (i.toFloat + f)
  | .array a, .array b => .array (a ++ b)
  | .array a, b => .array (a ++ [b])
  | a, .array b => .array (a :: b)
  | .string a, b => if a.isEmpty then b else .string (a ++ b.display floats)
  | a, .string b => if b.isEmpty then a else .string (a.display floats ++ b)
  | a, .constant _ => a
  | .constant _, b => b

def subtractNumber : Variable → Variable → Variable
  | .integer a, .integer b => .integer (saturating (a.toInt - b.toInt))
  | .float a, .float b => .float (a - b)
  | .integer a, .float b => .float (a.toFloat - b)
  | .float a, .integer b => .float (a - b.toFloat)
  | a, _ => a

def opSubtract : Variable → Variable → Variable
  | .array a, b | b, .array a => .array (a.filter fun v => !v.eq b)
  | a, b => subtractNumber a.parseNumber b.parseNumber

def multiplyNumber : Variable → Variable → Variable
  | .integer a, .integer b => .integer (saturating (a.toInt * b.toInt))
  | .float a, .float b => .float (a * b)
  | .integer i, .float f | .float f, .integer i => .float (i.toFloat * f)
  | a, _ => a

def opMultiply (a b : Variable) : Variable := multiplyNumber a.parseNumber b.parseNumber

def quotient (a b : Float) : Variable := .float (if b != 0 then a / b else 0)

def divideNumber : Variable → Variable → Variable
  | .integer a, .integer b => quotient a.toFloat b.toFloat
  | .float a, .float b => quotient a b
  | .integer a, .float b => quotient a.toFloat b
  | .float a, .integer b => quotient a b.toFloat
  | a, _ => a

def opDivide (a b : Variable) : Variable := divideNumber a.parseNumber b.parseNumber

def opAnd (a b : Variable) : Variable := ofBool (a.toBool && b.toBool)

def opOr (a b : Variable) : Variable := ofBool (a.toBool || b.toBool)

def opXor (a b : Variable) : Variable := ofBool (a.toBool ^^ b.toBool)

def opNot (a : Variable) : Variable := ofBool (!a.toBool)

def minusNumber : Variable → Variable
  | .integer n => .integer (-n)
  | .float f => .float (-f)
  | a => a

def opMinus (a : Variable) : Variable := minusNumber a.parseNumber

end Variable

open Variable in
def BinaryOperator.apply (floats : Floats) (a b : Variable) : BinaryOperator → Variable
  | .add => opAdd floats a b
  | .subtract => opSubtract a b
  | .multiply => opMultiply a b
  | .divide => opDivide a b
  | .and => opAnd a b
  | .or => opOr a b
  | .xor => opXor a b
  | .eq => ofBool (a.eq b)
  | .ne => ofBool (!a.eq b)
  | .lt => ofBool (a.partialCmp b == some .lt)
  | .le => ofBool (a.partialCmp b == some .lt || a.partialCmp b == some .eq)
  | .gt => ofBool (a.partialCmp b == some .gt)
  | .ge => ofBool (a.partialCmp b == some .gt || a.partialCmp b == some .eq)

def UnaryOperator.apply (a : Variable) : UnaryOperator → Variable
  | .not => a.opNot
  | .minus => a.opMinus

@[simp] theorem toBool_ofBool (b : Bool) : (ofBool b).toBool = b := by
  cases b <;> rfl

theorem opAnd_false (b : Variable) : (ofBool false).opAnd b = ofBool false := by
  simp [Variable.opAnd, toBool_ofBool]

theorem opOr_true (b : Variable) : (ofBool true).opOr b = ofBool true := by
  rw [Variable.opOr, toBool_ofBool, Bool.true_or]

end Bearmail.Expr
