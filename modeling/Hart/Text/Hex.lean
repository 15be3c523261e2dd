/-
Hexadecimal text.

* `hex` — lower-case digits after `0x`, without leading zeros;
* `hexPadded` — the same with the digits filled up to a width.
-/

namespace Hart.Text

/-- The lower-case hexadecimal digits of `n`, `0` for zero. -/
def hexDigits (n : Nat) : String :=
  String.ofList (Nat.toDigits 16 n)

/-- `text` filled up on the left with `fill` to `width` characters. -/
def padLeft (width : Nat) (fill : Char) (text : String) : String :=
  String.ofList (List.replicate (width - text.length) fill) ++ text

/-- `text` filled up on the right with `fill` to `width` characters. -/
def padRight (width : Nat) (fill : Char) (text : String) : String :=
  text ++ String.ofList (List.replicate (width - text.length) fill)

/-- A number in hexadecimal after `0x`. -/
def hex (n : Nat) : String :=
  "0x" ++ hexDigits n

/-- A number in hexadecimal after `0x`, with at least `digits` digits. -/
def hexPadded (digits n : Nat) : String :=
  "0x" ++ padLeft digits '0' (hexDigits n)

end Hart.Text
