import Mathlib.Data.List.Basic

/-!
# JSON texts

A compact printer and a reader of JSON values over lists of characters.

* `dump`: the printer.
* `parseValue`, `loads`: the reader, of a value with text behind it and of a
  whole text.

The reader is total by a fuel argument, and `loads` gives it the length of the
text. `JsonRead` proves the round trip and that more fuel changes nothing.

Numbers other than integers are kept as their text. A `\u` escape of a lone
surrogate is rejected: no `String` holds one.
-/
namespace BatchSystem.Core

inductive Json where
  | null
  | bool (b : Bool)
  | num (n : Int)
  | dec (text : List Char)
  | str (s : String)
  | arr (xs : List Json)
  | obj (ms : List (String × Json))

namespace Json

/-- The value under a key; of two members with one key the later one counts. -/
def lookup (ms : List (String × Json)) (key : String) : Option Json :=
  (ms.reverse.find? fun m => m.1 = key).map Prod.snd

def isStr (s : String) : Json → Bool
  | .str t => t = s
  | _ => false

/-! ## Printer -/

def hexDigit (n : Nat) : Char := Nat.digitChar n

/-- Quotes, backslashes and control characters are escaped, the rest is left
as it is. -/
def escChar (c : Char) : List Char :=
  if c = '"' then ['\\', '"']
  else if c = '\\' then ['\\', '\\']
  else if c = '\n' then ['\\', 'n']
  else if c = '\r' then ['\\', 'r']
  else if c = '\t' then ['\\', 't']
  else if c.toNat = 8 then ['\\', 'b']
  else if c.toNat = 12 then ['\\', 'f']
  else if c.toNat < 32 then ['\\', 'u', '0', '0', hexDigit (c.toNat / 16), hexDigit (c.toNat % 16)]
  else [c]

def escape (cs : List Char) : List Char := cs.flatMap escChar

def dumpStr (s : String) : List Char := '"' :: (escape s.toList ++ ['"'])

def dumpNum : Int → List Char
  | .ofNat n => Nat.toDigits 10 n
  | .negSucc n => '-' :: Nat.toDigits 10 (n + 1)

mutual
def dump : Json → List Char
  | .null => "null".toList
  | .bool true => "true".toList
  | .bool false => "false".toList
  | .num n => dumpNum n
  | .dec text => text
  | .str s => dumpStr s
  | .arr xs => '[' :: dumpElems xs
  | .obj ms => '{' :: dumpMembers ms

/-- The elements and the closing bracket. -/
def dumpElems : List Json → List Char
  | [] => [']']
  | [x] => dump x ++ [']']
  | x :: y :: xs => dump x ++ ',' :: dumpElems (y :: xs)

/-- The members and the closing brace. -/
def dumpMembers : List (String × Json) → List Char
  | [] => ['}']
  | [(k, v)] => dumpStr k ++ ':' :: (dump v ++ ['}'])
  | (k, v) :: m :: ms => dumpStr k ++ ':' :: (dump v ++ ',' :: dumpMembers (m :: ms))
end

/-! ## Reader -/

def isWs (c : Char) : Bool := c = ' ' || c = '\t' || c = '\n' || c = '\r'

def skipWs (s : List Char) : List Char := s.dropWhile isWs

/-- The text after `c`, which may stand behind whitespace. -/
def expect (c : Char) (s : List Char) : Option (List Char) :=
  match skipWs s with
  | [] => none
  | d :: r => if d = c then some r else none

def hexVal (c : Char) : Option Nat :=
  if c.isDigit then some (c.toNat - 48)
  else if 97 ≤ c.toNat ∧ c.toNat ≤ 102 then some (c.toNat - 87)
  else if 65 ≤ c.toNat ∧ c.toNat ≤ 70 then some (c.toNat - 55)
  else none

def hex4 (a b c d : Char) : Option Nat :=
  match hexVal a, hexVal b, hexVal c, hexVal d with
  | some a, some b, some c, some d => some (((a * 16 + b) * 16 + c) * 16 + d)
  | _, _, _, _ => none

def unescape (c : Char) : Option Char :=
  if c = '"' ∨ c = '\\' ∨ c = '/' then some c
  else if c = 'n' then some '\n'
  else if c = 'r' then some '\r'
  else if c = 't' then some '\t'
  else if c = 'b' then some (Char.ofNat 8)
  else if c = 'f' then some (Char.ofNat 12)
  else none

def isSurrogate (u : Nat) : Bool := 0xD800 ≤ u && u < 0xE000

/-- The text of a string after its opening quote, up to the closing one. -/
def parseStr : List Char → Option (List Char × List Char)
  | [] => none
  | c :: r =>
    if c = '"' then some ([], r)
    else if c = '\\' then
      match r with
      | 'u' :: a :: b :: c :: d :: r =>
        match hex4 a b c d with
        | none => none
        | some u =>
          if isSurrogate u then
            match r with
            | '\\' :: 'u' :: e :: f :: g :: h :: r =>
              match hex4 e f g h with
              | none => none
              | some lo =>
                if u < 0xDC00 ∧ 0xDC00 ≤ lo ∧ lo < 0xE000 then
                  (parseStr r).map fun p =>
                    (Char.ofNat (0x10000 + (u - 0xD800) * 0x400 + (lo - 0xDC00)) :: p.1, p.2)
                else none
            | _ => none
          else (parseStr r).map fun p => (Char.ofNat u :: p.1, p.2)
      | e :: r =>
        match unescape e with
        | none => none
        | some x => (parseStr r).map fun p => (x :: p.1, p.2)
      | [] => none
    else if c.toNat < 32 then none
    else (parseStr r).map fun p => (c :: p.1, p.2)

def isNumChar (c : Char) : Bool :=
  c.isDigit || c = '-' || c = '+' || c = '.' || c = 'e' || c = 'E'

/-- An integer without leading zeros. -/
def readNat (tok : List Char) : Option Nat :=
  if tok ≠ [] ∧ tok.all Char.isDigit ∧ (tok.head? ≠ some '0' ∨ tok.length = 1) then
    some (tok.foldl (fun n c => n * 10 + (c.toNat - 48)) 0)
  else none

/-- A fraction or an exponent after the integer part. -/
def isDecimal (tok : List Char) : Bool :=
  let body := if tok.head? = some '-' then tok.tail else tok
  let rest := body.dropWhile Char.isDigit
  let frac := if rest.head? = some '.' then rest.tail.dropWhile Char.isDigit else rest
  let expo := frac.tail.dropWhile fun c => c = '+' || c = '-'
  (readNat (body.takeWhile Char.isDigit)).isSome &&
    (rest.head? ≠ some '.' || (rest.tail.head?.map Char.isDigit).getD false) &&
    (frac = [] || ((frac.head? = some 'e' || frac.head? = some 'E') &&
      frac.tail.length ≤ expo.length + 1 && expo ≠ [] && expo.all Char.isDigit))

def readNum (tok : List Char) : Option Json :=
  match tok with
  | '-' :: ds => match readNat ds with
    | some n => some (.num (-(n : Int)))
    | none => if isDecimal tok then some (.dec tok) else none
  | _ => match readNat tok with
    | some n => some (.num n)
    | none => if isDecimal tok then some (.dec tok) else none

def literal (lit : String) (v : Json) (s : List Char) : Option (Json × List Char) :=
  if lit.toList.isPrefixOf s then some (v, s.drop lit.toList.length) else none

mutual
def parseValue : Nat → List Char → Option (Json × List Char)
  | 0, _ => none
  | _ + 1, [] => none
  | n + 1, c :: r =>
    if c = '"' then (parseStr r).map fun p => (.str (String.ofList p.1), p.2)
    else if c = '{' then
      match expect '}' r with
      | some r => some (.obj [], r)
      | none => (parseMembers n r).map fun p => (.obj p.1, p.2)
    else if c = '[' then
      match expect ']' r with
      | some r => some (.arr [], r)
      | none => (parseElems n r).map fun p => (.arr p.1, p.2)
    else if c = 'n' then literal "null" .null (c :: r)
    else if c = 't' then literal "true" (.bool true) (c :: r)
    else if c = 'f' then literal "false" (.bool false) (c :: r)
    else (readNum ((c :: r).takeWhile isNumChar)).map fun v => (v, (c :: r).dropWhile isNumChar)

/-- The elements of a non-empty array after its bracket. -/
def parseElems : Nat → List Char → Option (List Json × List Char)
  | 0, _ => none
  | n + 1, s =>
    (parseValue n (skipWs s)).bind fun x =>
      match expect ',' x.2 with
      | some r => (parseElems n r).map fun p => (x.1 :: p.1, p.2)
      | none => (expect ']' x.2).map fun r => ([x.1], r)

/-- The members of a non-empty object after its brace. -/
def parseMembers : Nat → List Char → Option (List (String × Json) × List Char)
  | 0, _ => none
  | n + 1, s =>
    (expect '"' s).bind fun r => (parseStr r).bind fun k => (expect ':' k.2).bind fun r =>
      (parseValue n (skipWs r)).bind fun x =>
        match expect ',' x.2 with
        | some r => (parseMembers n r).map fun p => ((String.ofList k.1, x.1) :: p.1, p.2)
        | none => (expect '}' x.2).map fun r => ([(String.ofList k.1, x.1)], r)
end

/-- A whole text: one value with whitespace around it. -/
def loads (s : List Char) : Option Json :=
  (parseValue (s.length + 1) (skipWs s)).bind fun x => if skipWs x.2 = [] then some x.1 else none

end Json
end BatchSystem.Core
