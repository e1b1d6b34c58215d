import BurnLens.Symbol.Import
import BurnLens.Symbol.Inference

/-! # Declarations of one file

Each kind of declaration is found by its own scan over the raw text, so the result is a best effort
and no parse. Entries of a field or parameter list that are not `name: type` become diagnostics;
nothing here can fail. -/

namespace BurnLens

namespace Symbol

open BurnLens.Text

/-! ### Lists of `name: type` -/

/-- An entry of a list: well formed, or the offsets of its trimmed text. -/
inductive ListEntry where
  | pair (name type : List Char)
  | malformed (start stop : Nat)
  deriving DecidableEq, Repr

/-- Commas and newlines separate the entries. -/
def isEntryChar (c : Char) : Bool :=
  c != ',' && c != '\n'

/-- The two sides of the only colon in an entry, trimmed, if neither is blank. -/
def pairOf? (raw : List Char) : Option (List Char × List Char) :=
  match splitOn ':' raw with
  | [name, type] =>
    if (trim name).isEmpty || (trim type).isEmpty then none else some (trim name, trim type)
  | _ => none

/-- Reads one piece of a list; a blank piece is no entry. -/
def entryOf? (h : Hit (List Char)) : Option ListEntry :=
  if (trim h.value).isEmpty then none
  else
    match pairOf? h.value with
    | some (name, type) => some (.pair name type)
    | none =>
      some (.malformed (h.start + (h.value.length - (trimLeft h.value).length))
        (h.start + (trimRight h.value).length))

/-- The entries of a list in order; offsets count from the start of the list. -/
def listEntries (cs : List Char) : List ListEntry :=
  (hits (anywhere (run1 isEntryChar)) cs).filterMap entryOf?

/-- The well-formed entries. -/
def pairs (cs : List Char) : List (String × String) :=
  (listEntries cs).filterMap fun
    | .pair name type => some (String.ofList name, String.ofList type)
    | .malformed _ _ => none

/-- A finding for each malformed entry of a list that starts at `offset`. -/
def malformedEntries (message code : String) (offset : Nat) (cs : List Char) : List Finding :=
  (listEntries cs).filterMap fun
    | .pair _ _ => none
    | .malformed start stop => some ⟨offset + start, offset + stop, message, code⟩

/-- The parameters that a parameter list declares. -/
def parameters (cs : List Char) : List Parameter :=
  (pairs cs).map fun p => ⟨p.1, p.2⟩

/-- The parameters of a method. The search for functions sees its header too and reports what is
malformed, so whatever is no pair is passed over here. -/
def quietParameters (cs : List Char) : List Parameter :=
  (hits (anywhere (run1 isEntryChar)) cs).filterMap fun h =>
    (pairOf? h.value).map fun p => ⟨String.ofList p.1, String.ofList p.2⟩

/-! ### Types and functions -/

def typeHits (cs : List Char) : List (Hit Pattern.Body) :=
  hits (anywhere Pattern.typeDeclaration) cs

def functionHits (cs : List Char) : List (Hit Pattern.Header) :=
  hits (anywhere Pattern.functionHeader) cs

def fieldFindings (cs : List Char) : List Finding :=
  (typeHits cs).flatMap fun h =>
    malformedEntries ("Invalid field definition in type " ++ String.ofList h.value.name)
      Code.invalidField (h.start + h.value.body.offset) h.value.body.text

def parameterFindings (cs : List Char) : List Finding :=
  (functionHits cs).flatMap fun h =>
    malformedEntries ("Invalid parameter definition in function " ++ String.ofList h.value.name)
      Code.invalidParameter (h.start + h.value.parameters.offset) h.value.parameters.text

def typeDefinition (d : Document) (h : Hit Pattern.Body) : TypeDefinition where
  name := String.ofList h.value.name
  fields := .ofList (pairs h.value.body.text)
  range := some (d.rangeOf h.start h.stop)
  uri := some d.uri

/-- The signature of a header found in a part of the document that starts at `offset`. -/
def signature (d : Document) (offset : Nat) (owner : Option String) (h : Hit Pattern.Header) :
    Signature where
  name := String.ofList h.value.name
  parameters :=
    if owner.isSome then quietParameters h.value.parameters.text
    else parameters h.value.parameters.text
  returnType := String.ofList h.value.returnType
  range := some (d.rangeOf (offset + h.start : Nat) (offset + h.stop : Nat))
  uri := some d.uri
  owner := owner

/-- Lists definitions by name; of two with one name the later takes the place of the earlier. -/
def byName {α : Type} (name : α → String) (ds : List α) : OrderedMap α :=
  .ofList (ds.map fun d => (name d, d))

/-! ### Classes -/

/-- What the search for the end of a block is in the middle of. -/
inductive Inside where
  | code
  | comment
  | literal (quote : Char)
  deriving DecidableEq, Repr

/-- The offset of the brace that closes a block, `depth` blocks being open inside it. The search
goes on at offset `pos` one character after another; it knows literals and comments, but no
words. -/
def endFrom (inside : Inside) (depth pos : Nat) : List Char → Option Nat
  | [] => none
  | c :: cs =>
    match inside with
    | .comment => endFrom (if c == '\n' then .code else .comment) depth (pos + 1) cs
    | .literal quote =>
      if c == '\\' then
        match cs with
        | [] => none
        | _ :: rest => endFrom (.literal quote) depth (pos + 2) rest
      else endFrom (if c == quote || c == '\n' then .code else .literal quote) depth (pos + 1) cs
    | .code =>
      if c == '"' || c == '\'' then endFrom (.literal c) depth (pos + 1) cs
      else if c == '/' && cs.head? == some '/' then endFrom .comment depth (pos + 1) cs
      else if c == '{' then endFrom .code (depth + 1) (pos + 1) cs
      else if c == '}' then
        match depth with
        | 0 => some pos
        | depth + 1 => endFrom .code depth (pos + 1) cs
      else endFrom .code depth (pos + 1) cs

theorem endFrom_literal_cons {quote c : Char} (hc : ¬ (c == '\\') = true) (depth pos : Nat)
    (cs : List Char) :
    endFrom (.literal quote) depth pos (c :: cs) =
      endFrom (if c == quote || c == '\n' then .code else .literal quote) depth (pos + 1) cs := by
  cases cs <;> simp [endFrom, hc]

/-- Where the block ends whose body starts at `start`: at its closing brace, or with the text. -/
def blockEnd (cs : List Char) (start : Nat) : Nat :=
  (endFrom .code 0 start (cs.drop start)).getD cs.length

def classDefinition (d : Document) (h : Hit (List Char)) : ClassDefinition :=
  let name := String.ofList h.value
  let stop := blockEnd d.chars h.stop
  { name
    methods := byName Signature.name
      ((functionHits (slice d.chars h.stop stop)).map (signature d h.stop (some name)))
    range := d.rangeOf h.start (min (stop + 1) d.chars.length : Nat)
    uri := d.uri }

/-! ### Variables -/

/-- The file's own functions answer first. -/
def ownFirst (functions : OrderedMap Signature) (lookup : FunctionLookup) : FunctionLookup :=
  fun name => (functions.get? name).or (lookup name)

def variableOf (d : Document) (lookup : FunctionLookup) (h : Hit Pattern.Initialised) :
    Variable where
  name := String.ofList h.value.name
  type :=
    if h.value.declaredType.isEmpty then inferType lookup h.value.value
    else String.ofList h.value.declaredType
  range := d.rangeOf h.start (h.start + h.value.length : Nat)
  isConst := h.value.isConst

end Symbol

/-- The table of a file with what is malformed in it. -/
structure Extraction where
  table : SymbolTable
  diagnostics : List Diagnostic
  deriving DecidableEq, Repr

/-- Extracts the declarations of a file. `lookup` knows functions declared elsewhere and serves
only to type variables. -/
def extract (text uri : String) (lookup : FunctionLookup) : Extraction :=
  let d : Document := ⟨uri, 0, text⟩
  let cs := d.chars
  let functions := Symbol.byName Signature.name
    ((Symbol.functionHits cs).map (Symbol.signature d 0 none))
  let vars := (Text.hits (Text.anywhere Pattern.initialisedVariable) cs).map
    (Symbol.variableOf d (Symbol.ownFirst functions lookup))
  { table := {
      uri
      imports := Symbol.importPaths cs
      types := Symbol.byName TypeDefinition.name
        ((Symbol.typeHits cs).map (Symbol.typeDefinition d))
      functions
      classes := Symbol.byName ClassDefinition.name
        ((Text.hits (Text.anywhere (Pattern.blockHead "class")) cs).map (Symbol.classDefinition d))
      vars := Symbol.byName Variable.name vars }
    diagnostics := (Symbol.fieldFindings cs ++ Symbol.parameterFindings cs).map
      (Finding.report d .error .syntactic) }

end BurnLens
