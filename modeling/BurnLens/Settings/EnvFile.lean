import BurnLens.OrderedMap
import BurnLens.Text.Cut
import BurnLens.Text.Scan

/-! # Environment files

Lines of `NAME=value`. A value may stand between quotes, with escapes, or plain up to a comment; a
name may have `export` in front. A line that cannot be read is skipped, and so is a mark of the
octet order in front of the first. A value may refer to other names by a dollar sign and braces,
with a default. -/

namespace BurnLens.EnvFile

open BurnLens.Text

/-- White space within a line. -/
def isGap (c : Char) : Bool :=
  isBlank c && c != '\r' && c != '\n'

def isLineEnd (c : Char) : Bool :=
  c == '\r' || c == '\n'

/-- A text up to its closing quote. A backslash keeps the character behind it from closing. -/
def quotedValue (quote : Char) : List Char → Option (List Char × List Char)
  | '\\' :: c :: cs => (quotedValue quote cs).map fun (value, after) => ('\\' :: c :: value, after)
  | c :: cs =>
    if c == quote then some ([], cs)
    else (quotedValue quote cs).map fun (value, after) => (c :: value, after)
  | [] => none

/-- What a character stands for behind a backslash between double quotes. -/
def escaped? : Char → Option Char
  | '\\' => some '\\'
  | '\'' => some '\''
  | '"' => some '"'
  | 'a' => some (Char.ofNat 7)
  | 'b' => some (Char.ofNat 8)
  | 'f' => some (Char.ofNat 12)
  | 'n' => some '\n'
  | 'r' => some '\r'
  | 't' => some '\t'
  | 'v' => some (Char.ofNat 11)
  | _ => none

/-- Replaces the escapes that `meaning` knows. -/
def unescape (meaning : Char → Option Char) : List Char → List Char
  | '\\' :: c :: cs =>
    match meaning c with
    | some d => d :: unescape meaning cs
    | none => '\\' :: unescape meaning (c :: cs)
  | c :: cs => c :: unescape meaning cs
  | [] => []

/-- Between single quotes only the quote and the backslash have escapes. -/
def escapedSingle? (c : Char) : Option Char :=
  if c == '\\' || c == '\'' then some c else none

/-- A plain value up to a number sign behind white space. -/
def beforeComment : List Char → List Char
  | [] => []
  | c :: cs =>
    if isBlank c && (cs.dropWhile isBlank).head? == some '#' then [] else c :: beforeComment cs

/-- Reads a value from behind the equals sign. -/
def value (cs : List Char) : Option (List Char × List Char) :=
  match cs.dropWhile isGap with
  | '\'' :: rest => (quotedValue '\'' rest).map fun (v, after) => (unescape escapedSingle? v, after)
  | '"' :: rest => (quotedValue '"' rest).map fun (v, after) => (unescape escaped? v, after)
  | _ =>
    let (line, rest) := run (fun c => !isLineEnd c) cs
    some (trim (beforeComment line), rest)

/-- Reads a name. -/
def name (cs : List Char) : Option (List Char × List Char) :=
  match cs with
  | '\'' :: rest => do
    let (name, rest) ← run1 (· != '\'') rest
    return (name, ← literal ['\''] rest)
  | _ => run1 (fun c => c != '=' && c != '#' && !isBlank c) cs

/-- Skips one line end. -/
def lineEnd : List Char → Option (List Char)
  | [] => some []
  | '\r' :: '\n' :: cs => some cs
  | c :: cs => if isLineEnd c then some cs else none

/-- Skips what may stand behind a binding. -/
def restOfBinding (cs : List Char) : Option (List Char) :=
  let cs' := cs.dropWhile isGap
  let behind := if cs'.head? == some '#' then cs'.dropWhile (fun c => !isLineEnd c) else cs
  lineEnd (behind.dropWhile isGap)

/-- What a line holds. -/
inductive Line where
  | binding (name : List Char) (value : Option (List Char))
  | nothing

/-- Skips `export` and the white space behind it. -/
def skipExport (cs : List Char) : List Char :=
  match literal "export".toList cs with
  | some r => if r.head?.any isGap then r.dropWhile isGap else cs
  | none => cs

/-- Reads one line from its first character that is not white space. The second part of the answer
is where reading stopped; a line that cannot be read stops where the trouble is. -/
def line (cs : List Char) : Except (List Char) (Line × List Char) :=
  let cs := skipExport cs
  if cs.head? == some '#' then
    match restOfBinding cs with
    | some rest => .ok (.nothing, rest)
    | none => .error cs
  else
    match name cs with
    | none => .error cs
    | some (n, r) =>
      let r := r.dropWhile isGap
      match r with
      | '=' :: r =>
        match value r with
        | none => .error r
        | some (v, r) =>
          match restOfBinding r with
          | some rest => .ok (.binding n (some v), rest)
          | none => .error r
      | _ =>
        match restOfBinding r with
        | some rest => .ok (.binding n none, rest)
        | none => .error r

/-- Reads the lines of a file, at most `fuel` of them. -/
def linesOf : Nat → List Char → List Line
  | 0, _ => []
  | fuel + 1, cs =>
    match blanks cs with
    | [] => []
    | cs =>
      match line cs with
      | .ok (l, rest) => l :: linesOf fuel rest
      | .error rest => linesOf fuel ((rest.dropWhile fun c => !isLineEnd c).drop 1)

/-! ### References -/

/-- A reference behind its dollar sign and brace: the name, the default and the rest. -/
def reference (cs : List Char) : Option ((String × String) × List Char) := do
  let (name, r) := run (fun c => c != '}' && c != ':') cs
  match r with
  | '}' :: rest => return ((String.ofList name, ""), rest)
  | ':' :: '-' :: r =>
    let (default, r) := run (· != '}') r
    return ((String.ofList name, String.ofList default), ← literal ['}'] r)
  | _ => none

/-- Replaces references by what `meaning` says, or by their defaults; at most `fuel` characters. -/
def expand (meaning : String → Option String) : Nat → List Char → List Char
  | 0, cs => cs
  | _ + 1, [] => []
  | fuel + 1, c :: cs =>
    match c, cs with
    | '$', '{' :: r =>
      match reference r with
      | some ((name, default), rest) =>
        ((meaning name).getD default).toList ++ expand meaning fuel rest
      | none => c :: expand meaning fuel cs
    | _, _ => c :: expand meaning fuel cs

/-- Takes a binding into the names read so far; these answer references before the environment. -/
def bind (environment : OrderedMap String) (names : OrderedMap (Option String)) :
    Line → OrderedMap (Option String)
  | .nothing => names
  | .binding name none => names.put (String.ofList name) none
  | .binding name (some value) =>
    let meaning (n : String) : Option String :=
      match names.get? n with
      | some known => some (known.getD "")
      | none => environment.get? n
    let value := expand meaning (value.length + 1) value
    names.put (String.ofList name) (some (String.ofList value))

/-- The mark that tells the order of octets. -/
def orderMark : Char := Char.ofNat 0xFEFF

/-- The names of an environment file, some without value. -/
def read (environment : OrderedMap String) (text : List Char) : OrderedMap (Option String) :=
  let cs := if text.head? = some orderMark then text.tail else text
  (linesOf (cs.length + 1) cs).foldl (bind environment) .empty

end BurnLens.EnvFile
