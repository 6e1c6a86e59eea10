import OmniRoute.Lib.CodeUnits

/-!
# Values of a scripting language and their JSON text

The values that `JSON.stringify` makes a text of, with strings of code units, the values it leaves
out (`undefined`, functions, symbols), and objects with a method `toJSON`. Such an object is replaced
by what the method returns, once: when that is again an object with such a method, its own entries
are taken. How a number is written is a parameter.

The text of a string goes by code points, where a surrogate that is not paired is escaped.
-/

/-- `Number.isFinite` and `String` for the numbers. -/
structure JsNumerals (N : Type) where
  isFinite : N → Bool
  text : N → CodeUnits

mutual

/-- A value without cycles; of an object with `toJSON`, its own entries and what the method
returns. -/
inductive JsValue (N : Type)
  | null
  | bool (b : Bool)
  | number (n : N)
  | string (s : CodeUnits)
  | omitted
  | array (items : JsItems N)
  | object (entries : JsEntries N)
  | toJSON (own : JsEntries N) (result : JsValue N)

inductive JsItems (N : Type)
  | nil
  | cons (item : JsValue N) (rest : JsItems N)

/-- The entries of an object in the order of its keys. -/
inductive JsEntries (N : Type)
  | nil
  | cons (key : CodeUnits) (item : JsValue N) (rest : JsEntries N)

end

namespace JsValue

variable {N : Type}

/-! ## Strings -/

def isHighSurrogate (u : UInt16) : Bool := 0xD800 ≤ u && u ≤ 0xDBFF

def isLowSurrogate (u : UInt16) : Bool := 0xDC00 ≤ u && u ≤ 0xDFFF

inductive CodePoint
  | unit (u : UInt16)
  | pair (high low : UInt16)

def codePoints : CodeUnits → List CodePoint
  | [] => []
  | [u] => [.unit u]
  | u :: v :: rest =>
    if isHighSurrogate u && isLowSurrogate v then .pair u v :: codePoints rest
    else .unit u :: codePoints (v :: rest)

def hexDigit (n : UInt16) : UInt16 := if n < 10 then 48 + n else 87 + n

/-- `\u` and four hexadecimal digits. -/
def unicodeEscape (u : UInt16) : CodeUnits :=
  [92, 117, hexDigit (u / 4096), hexDigit (u / 256 % 16), hexDigit (u / 16 % 16), hexDigit (u % 16)]

/-- The escapes of one character behind the backslash. -/
def singleEscapes : List (UInt16 × CodeUnits) :=
  [(0x22, [92, 34]), (0x5C, [92, 92]), (0x08, [92, 98]), (0x09, [92, 116]), (0x0A, [92, 110]),
    (0x0C, [92, 102]), (0x0D, [92, 114])]

def quoteCodePoint : CodePoint → CodeUnits
  | .pair high low => [high, low]
  | .unit u =>
    match singleEscapes.lookup u with
    | some escape => escape
    | none =>
      if u < 0x20 || isHighSurrogate u || isLowSurrogate u then unicodeEscape u else [u]

/-- `QuoteJSONString` -/
def quote (s : CodeUnits) : CodeUnits := [34] ++ (codePoints s).flatMap quoteCodePoint ++ [34]

/-! ## Values -/

def nullText : CodeUnits := CodeUnits.ofString "null"

def boolText (b : Bool) : CodeUnits := CodeUnits.ofString (if b then "true" else "false")

/-- The comma in front of all but the first. -/
def comma (first : Bool) : CodeUnits := if first then [] else [44]

variable (num : JsNumerals N)

def numberText (n : N) : CodeUnits := if num.isFinite n then num.text n else nullText

mutual

/-- The text of a value, if it has one; `calls` tells whether its method `toJSON` is called. -/
def serialize (calls : Bool) : JsValue N → Option CodeUnits
  | .null => some nullText
  | .bool b => some (boolText b)
  | .number n => some (numberText num n)
  | .string s => some (quote s)
  | .omitted => none
  | .array items => some ([0x5B] ++ serializeItems true items ++ [0x5D])
  | .object entries => some ([0x7B] ++ serializeEntries true entries ++ [0x7D])
  | .toJSON own result =>
    if calls then serialize false result
    else some ([0x7B] ++ serializeEntries true own ++ [0x7D])

/-- In an array what has no text is written as null. -/
def serializeItems (first : Bool) : JsItems N → CodeUnits
  | .nil => []
  | .cons item rest =>
    comma first ++ ((serialize true item).getD nullText ++ serializeItems false rest)

/-- In an object it is left out with its key. -/
def serializeEntries (first : Bool) : JsEntries N → CodeUnits
  | .nil => []
  | .cons key item rest =>
    match serialize true item with
    | none => serializeEntries first rest
    | some text => comma first ++ (quote key ++ ([58] ++ (text ++ serializeEntries false rest)))

end

/-- `JSON.stringify(value)` -/
def stringify (value : JsValue N) : Option CodeUnits := serialize num true value

def isOmitted : JsValue N → Bool
  | .omitted => true
  | _ => false

theorem isOmitted_iff {v : JsValue N} : isOmitted v = true ↔ v = .omitted := by
  cases v <;> simp [isOmitted]

/-- What is not left out has a text, when its `toJSON` is not called. -/
theorem serialize_false_eq_none {v : JsValue N} : serialize num false v = none ↔ v = .omitted := by
  cases v <;> simp [serialize]

/-- The values that have no text: those left out, and objects whose `toJSON` returns one. -/
theorem serialize_true_eq_none {v : JsValue N} :
    serialize num true v = none ↔ v = .omitted ∨ ∃ own, v = .toJSON own .omitted := by
  cases v with
  | toJSON own result =>
    rw [serialize, if_pos rfl, serialize_false_eq_none]
    simp
  | _ => simp [serialize]

end JsValue
