import CoordSplit.Text.Numeral
import CoordSplit.Toml.Basic

/-!
# Reading tables of keys

A document is read line by line into statements: comments, headers in brackets, and pairs. Values are texts in
four kinds of quotes, whole numbers, numbers with a fraction, truth values, lists, and tables in braces; lists
and tables may go over several lines. Dates are refused.

Every reader gives what it reads and the text behind it. Those of values have a bound on their depth, which
`read` computes from the size of the text.
-/

set_option autoImplicit false

namespace CoordSplit.Toml

/-- Whether a byte may not stand in a document. -/
def isControl (b : UInt8) : Bool := (b < 32 && b ≠ 9) || b = 127

/-- The text behind the blanks at its start. -/
def skipBlanks (t : Text) : Text := t.dropWhile fun b => b = 32 || b = 9

/-- The text behind a comment, up to the end of the line. -/
def skipComment (t : Text) : Option Text :=
  let comment := t.takeWhile (· ≠ 10)
  if comment.any isControl then none else some (t.drop comment.length)

/-- The text behind blanks and a comment, which has to end there or go on in the next line. -/
def endLine (t : Text) : Option Text :=
  match skipBlanks t with
  | [] => some []
  | b :: rest =>
    if b = 10 then some rest
    else if b = 35 then (skipComment rest).map List.tail
    else none

/-- The text behind blanks, line ends and comments. -/
def skipLines : Nat → Text → Option Text
  | 0, _ => none
  | fuel + 1, t =>
    match skipBlanks t with
    | [] => some []
    | b :: rest =>
      if b = 10 then skipLines fuel rest
      else if b = 35 then (skipComment rest).bind (skipLines fuel)
      else some (b :: rest)

/-! ## Texts in quotes -/

/-- The value of `n` hexadecimal digits at the start of a text, and what follows. -/
def takeDigits : Nat → Nat → Text → Option (Nat × Text)
  | 0, acc, t => some (acc, t)
  | _ + 1, _, [] => none
  | n + 1, acc, b :: rest =>
    match Text.digitValue b with
    | some d => if d < 16 then takeDigits n (acc * 16 + d) rest else none
    | none => none

/-- The character that is written behind a backslash, and what follows. -/
def takeEscape : Text → Option (Text × Text)
  | [] => none
  | b :: rest =>
    match [(98, 8), (116, 9), (110, 10), (102, 12), (114, 13), (101, 27), (34, 34), (92, 92)].lookup b with
    | some c => some ([c], rest)
    | none =>
      match [((120 : UInt8), 2), (117, 4), (85, 8)].lookup b with
      | none => none
      | some n =>
        match takeDigits n 0 rest with
        | none => none
        | some (c, tail) => if Text.isScalar c then some (Text.ofCode c, tail) else none

/-- A text in double quotes. -/
def basicText : Nat → Text → Option (Text × Text)
  | 0, _ => none
  | _, [] => none
  | fuel + 1, b :: rest =>
    if b = 34 then some ([], rest)
    else if b = 92 then do
      let (c, tail) ← takeEscape rest
      let (t, tail) ← basicText fuel tail
      return (c ++ t, tail)
    else if isControl b then none
    else (basicText fuel rest).map fun p => (b :: p.1, p.2)

/-- A text in single quotes. -/
def literalText : Text → Option (Text × Text)
  | [] => none
  | b :: rest =>
    if b = 39 then some ([], rest)
    else if isControl b then none
    else (literalText rest).map fun p => (b :: p.1, p.2)

/-- The text behind a backslash at the end of a line: the line ends and blanks are skipped. -/
def skipLineEnd (t : Text) : Option Text :=
  match skipBlanks t with
  | 10 :: rest => some (rest.dropWhile fun b => b = 32 || b = 9 || b = 10)
  | _ => none

/-- A text over several lines, up to three quotes; two more may stand before them. -/
def longText (quote : UInt8) : Nat → Text → Option (Text × Text)
  | 0, _ => none
  | _, [] => none
  | fuel + 1, b :: rest =>
    let quotes := (b :: rest).takeWhile (· = quote)
    if 5 < quotes.length then none
    else if 3 ≤ quotes.length then some (quotes.drop 3, (b :: rest).drop quotes.length)
    else if b = 92 ∧ quote = 34 then
      match skipLineEnd rest with
      | some tail => longText quote fuel tail
      | none => do
        let (c, tail) ← takeEscape rest
        let (t, tail) ← longText quote fuel tail
        return (c ++ t, tail)
    else if isControl b ∧ b ≠ 10 then none
    else (longText quote fuel rest).map fun p => (b :: p.1, p.2)

/-- A text behind its opening quote. -/
def quotedText (quote : UInt8) (t : Text) : Option (Text × Text) :=
  if t.take 2 = [quote, quote] then
    let body := t.drop 2
    longText quote (t.length + 1) (if body.head? = some 10 then body.tail else body)
  else if quote = 34 then basicText (t.length + 1) t
  else literalText t

/-! ## Keys -/

/-- A part of a key. -/
def keyPart (t : Text) : Option (Text × Text) :=
  match t with
  | [] => none
  | b :: rest =>
    if b = 34 then basicText (rest.length + 1) rest
    else if b = 39 then literalText rest
    else
      let part := t.takeWhile isBareKeyByte
      if part.isEmpty then none else some (part, t.drop part.length)

/-- A key: parts with dots between them, and blanks around the dots. -/
def keyPath : Nat → Text → Option (Path × Text)
  | 0, _ => none
  | fuel + 1, t => do
    let (part, rest) ← keyPart (skipBlanks t)
    match skipBlanks rest with
    | 46 :: tail => (keyPath fuel tail).map fun p => (part :: p.1, p.2)
    | tail => return ([part], tail)

/-! ## Numbers and truth values -/

/-- Whether digits are written well: underscores stand between digits only. -/
def areDigits (t : Text) : Bool :=
  !t.isEmpty && Text.gapsOk false .start t && t.all fun b => Text.isDigit b || b = 95

/-- Whether a whole part is written well: no zero leads. -/
def isWhole (t : Text) : Bool := areDigits t && (t.head? ≠ some 48 || t.length = 1)

/-- Whether a text is empty or an exponent. -/
def isExponent : Text → Bool
  | [] => true
  | b :: rest => (b = 101 || b = 69) && areDigits (Text.dropSign rest)

/-- Whether a number with a fraction or an exponent is written well. -/
def isFraction (t : Text) : Bool :=
  let u := Text.dropSign t
  let digit (b : UInt8) : Bool := Text.isDigit b || b = 95
  let rest := u.dropWhile digit
  u = ("inf" : Text) || u = ("nan" : Text) || isWhole (u.takeWhile digit) &&
    match rest with
    | 46 :: more => areDigits (more.takeWhile digit) && isExponent (more.dropWhile digit)
    | more => !more.isEmpty && isExponent more

/-- The whole number of digits behind a mark of their base. -/
def markedInt? (t : Text) : Option Int :=
  match t with
  | 48 :: m :: rest =>
    match [((120 : UInt8), 16), (111, 8), (98, 2)].lookup m with
    | none => none
    | some base =>
      if rest.isEmpty || !Text.gapsOk (base = 16) .start rest then none
      else match Text.intValue (.fixed base) 64 (rest.filter (· ≠ 95)) with
        | .ok i => if rest.head? = some 43 ∨ rest.head? = some 45 then none else some i
        | .error _ => none
  | _ => none

/-- A word without quotes: a truth value or a number. -/
def bareValue (t : Text) : Option Value :=
  if t = ("true" : Text) then some (.truth true)
  else if t = ("false" : Text) then some (.truth false)
  else if isWhole (Text.dropSign t) then
    match Text.intValue (.fixed 10) 64 (t.filter (· ≠ 95)) with
    | .ok i => some (.int i)
    | .error _ => none
  else match markedInt? t with
    | some i => some (.int i)
    | none => if isFraction t then some .float else none

/-- Whether a byte belongs to a word without quotes. -/
def isWordByte (b : UInt8) : Bool := isBareKeyByte b || b = 43 || b = 46

/-! ## Values and statements -/

mutual

/-- A value. -/
def value : Nat → Text → Option (Value × Text)
  | 0, _ => none
  | fuel + 1, t =>
    match t with
    | [] => none
    | b :: rest =>
      if b = 34 ∨ b = 39 then (quotedText b rest).map fun p => (.text p.1, p.2)
      else if b = 91 then (items fuel rest).map fun p => (.list p.1, p.2)
      else if b = 123 then (pairs fuel rest).map fun p => (.pairs p.1, p.2)
      else
        let word := t.takeWhile isWordByte
        (bareValue word).map fun v => (v, t.drop word.length)

/-- The items of a list, up to its closing bracket. -/
def items : Nat → Text → Option (List Value × Text)
  | 0, _ => none
  | fuel + 1, t => do
    let t ← skipLines (t.length + 1) t
    if t.head? = some 93 then return ([], t.tail)
    let (v, rest) ← value fuel t
    let rest ← skipLines (rest.length + 1) rest
    if rest.head? = some 93 then return ([v], rest.tail)
    if rest.head? = some 44 then
      let (vs, tail) ← items fuel rest.tail
      return (v :: vs, tail)
    else none

/-- The pairs of a table, up to its closing brace. -/
def pairs : Nat → Text → Option (List (Path × Value) × Text)
  | 0, _ => none
  | fuel + 1, t => do
    let t ← skipLines (t.length + 1) t
    if t.head? = some 125 then return ([], t.tail)
    let (path, rest) ← keyPath (t.length + 1) t
    if rest.head? ≠ some 61 then none
    else
      let (v, rest) ← value fuel (skipBlanks rest.tail)
      let rest ← skipLines (rest.length + 1) rest
      if rest.head? = some 125 then return ([(path, v)], rest.tail)
      if rest.head? = some 44 then
        let (ps, tail) ← pairs fuel rest.tail
        return ((path, v) :: ps, tail)
      else none

end

/-- A header behind its opening bracket. -/
def header (t : Text) : Option (Statement × Text) :=
  let element := t.head? = some 91
  match keyPath (t.length + 1) (if element then t.tail else t) with
  | some (path, 93 :: rest) =>
    if !element then some (.header path false, rest)
    else if rest.head? = some 93 then some (.header path true, rest.tail) else none
  | _ => none

/-- A pair. -/
def pair (t : Text) : Option (Statement × Text) := do
  let (path, rest) ← keyPath (t.length + 1) t
  if rest.head? ≠ some 61 then none
  else
    let (v, tail) ← value (rest.length + 1) (skipBlanks rest.tail)
    return (.pair path v, tail)

/-- The statements of a text, each on lines of its own. -/
def statements : Nat → Text → Option (List Statement)
  | 0, _ => none
  | fuel + 1, t => do
    let t ← skipLines (t.length + 1) t
    if t.isEmpty then return []
    let (s, rest) ← if t.head? = some 91 then header t.tail else pair t
    let ss ← statements fuel (← endLine rest)
    return s :: ss

/-- The text with line ends of one byte. -/
def unifyBreaks : Text → Text
  | [] => []
  | 13 :: 10 :: rest => 10 :: unifyBreaks rest
  | b :: rest => b :: unifyBreaks rest

/-- The document of a text, if it can be read. -/
def read (t : Text) : Option Document :=
  if !Text.isUtf8 t then none
  else
    let body := unifyBreaks (if Text.startsWith t [0xEF, 0xBB, 0xBF] then t.drop 3 else t)
    (statements (body.length + 1) body).bind Document.ofStatements?

end CoordSplit.Toml
