import BurnLens.Symbol.Extract

/-!
# Well-formed files

Declarations as they are written, one on a line and a class on several, and the table that a file of
them declares. A name is an identifier that does not end in one of the words that start a
declaration: `fun` is found by its letters alone, so `xfun f()` would pass for the start of a
function.
-/

namespace BurnLens.Source

open Text

/-- The words that start a declaration or an import. -/
def leads : List (List Char) :=
  ["var", "const", "fun", "def", "class", "import"].map String.toList

/-! ### Syntax -/

structure Identifier where
  chars : List Char
  start : chars.head?.any isIdentStart = true
  ident : ∀ c ∈ chars, isIdentChar c = true

/-- An identifier that does not end in a leading word. -/
structure Name extends Identifier where
  free : ∀ k ∈ leads, ¬ k <:+ chars

structure Digits where
  chars : List Char
  ne_nil : chars ≠ []
  digit : ∀ c ∈ chars, c.isDigit = true

/-- A field or a parameter. There is a colon behind its name, so that may be any identifier. -/
structure TypedName where
  name : Identifier
  type : Name

/-- `def N { f: T, g: U }` -/
structure Record where
  name : Name
  fields : List TypedName

/-- `fun N(p: T, q: U): R { }`, the result being optional. -/
structure Function where
  name : Name
  parameters : List TypedName
  result : Option Name

structure Class where
  name : Name
  methods : List Function

/-- What a variable may start with. -/
inductive Value where
  | boolean (value : Bool)
  | nil
  | integer (negative : Bool) (digits : Digits)
  | decimal (negative : Bool) (whole fraction : Digits)
  | call (callee : Name)

/-- `var N: T = V` or `const N: T = V`, the type being optional. -/
structure Binding where
  isConst : Bool
  name : Name
  type : Option Name
  value : Value

inductive Declaration where
  | record (r : Record)
  | function (f : Function)
  | classBlock (c : Class)
  | binding (b : Binding)

/-! ### How it is written -/

def Identifier.text (n : Identifier) : String :=
  String.ofList n.chars

def TypedName.render (p : TypedName) : List Char :=
  p.name.chars ++ ':' :: ' ' :: p.type.chars

/-- `f: T, g: U` -/
def listed : List TypedName → List Char
  | [] => []
  | [p] => p.render
  | p :: q :: ps => p.render ++ ',' :: ' ' :: listed (q :: ps)

/-- An optional type behind its colon. -/
def ascribed : Option Name → List Char
  | none => []
  | some type => ':' :: ' ' :: type.chars

def Record.head (r : Record) : List Char :=
  "def".toList ++ ' ' :: (r.name.chars ++ [' ', '{'])

def Record.body (r : Record) : List Char :=
  if r.fields.isEmpty then [' '] else ' ' :: (listed r.fields ++ [' '])

def Record.render (r : Record) : List Char :=
  r.head ++ (r.body ++ ['}'])

def Function.head (f : Function) : List Char :=
  "fun".toList ++ ' ' :: (f.name.chars ++ ['('])

/-- A function up to its opening brace. -/
def Function.header (f : Function) : List Char :=
  f.head ++ (listed f.parameters ++ ')' :: (ascribed f.result ++ [' ', '{']))

def Function.render (f : Function) : List Char :=
  f.header ++ [' ', '}']

def Class.head (c : Class) : List Char :=
  "class".toList ++ ' ' :: (c.name.chars ++ [' ', '{'])

/-- What stands between the braces. -/
def Class.body (c : Class) : List Char :=
  '\n' :: (joinWith '\n' (c.methods.map Function.render) ++ ['\n'])

def Class.render (c : Class) : List Char :=
  c.head ++ (c.body ++ ['}'])

def signed (negative : Bool) (cs : List Char) : List Char :=
  if negative then '-' :: cs else cs

def Value.render : Value → List Char
  | .boolean value => (toString value).toList
  | .nil => "nil".toList
  | .integer negative digits => signed negative digits.chars
  | .decimal negative whole fraction => signed negative (whole.chars ++ '.' :: fraction.chars)
  | .call callee => callee.chars ++ ['(', ')']

def Binding.keyword (b : Binding) : String :=
  if b.isConst then "const" else "var"

def Binding.render (b : Binding) : List Char :=
  b.keyword.toList ++ ' ' :: (b.name.chars ++ (ascribed b.type ++
    ' ' :: '=' :: ' ' :: b.value.render))

def Declaration.render : Declaration → List Char
  | .record r => r.render
  | .function f => f.render
  | .classBlock c => c.render
  | .binding b => b.render

/-- Declarations on lines of their own, with `blank` newlines behind the last. -/
def file (blank : Nat) (ds : List Declaration) : List Char :=
  joinWith '\n' (ds.map Declaration.render) ++ List.replicate blank '\n'

/-! ### Where it stands -/

/-- Things written on lines of their own, each with its offset. -/
def placed {α : Type} (render : α → List Char) (pos : Nat) : List α → List (Nat × α)
  | [] => []
  | a :: as => (pos, a) :: placed render (pos + (render a).length + 1) as

def Class.placedMethods (c : Class) (pos : Nat) : List (Nat × Function) :=
  placed Function.render (pos + c.head.length + 1) c.methods

def Declaration.record? : Nat × Declaration → Option (Nat × Record)
  | (pos, .record r) => some (pos, r)
  | _ => none

def Declaration.class? : Nat × Declaration → Option (Nat × Class)
  | (pos, .classBlock c) => some (pos, c)
  | _ => none

def Declaration.binding? : Nat × Declaration → Option (Nat × Binding)
  | (pos, .binding b) => some (pos, b)
  | _ => none

/-- The functions in a declaration: itself, or its methods. -/
def Declaration.functions : Nat × Declaration → List (Nat × Function)
  | (pos, .function f) => [(pos, f)]
  | (pos, .classBlock c) => c.placedMethods pos
  | _ => []

def records (ds : List Declaration) : List (Nat × Record) :=
  (placed Declaration.render 0 ds).filterMap Declaration.record?

def classes (ds : List Declaration) : List (Nat × Class) :=
  (placed Declaration.render 0 ds).filterMap Declaration.class?

def bindings (ds : List Declaration) : List (Nat × Binding) :=
  (placed Declaration.render 0 ds).filterMap Declaration.binding?

/-- All functions of a file in order, methods among them. -/
def functions (ds : List Declaration) : List (Nat × Function) :=
  (placed Declaration.render 0 ds).flatMap Declaration.functions

/-- Names of one kind are declared once. -/
structure Distinct (ds : List Declaration) : Prop where
  records : ((records ds).map (·.2.name.text)).Nodup
  functions : ((functions ds).map (·.2.name.text)).Nodup
  classes : ((classes ds).map (·.2.name.text)).Nodup
  bindings : ((bindings ds).map (·.2.name.text)).Nodup
  fields : ∀ r ∈ Source.records ds, (r.2.fields.map (·.name.text)).Nodup

/-! ### What it declares -/

section
variable (d : Document) (pos : Nat)

def optionalText (name : Option Name) : String :=
  (name.map (·.text)).getD ""

def Record.definition (r : Record) : TypeDefinition where
  name := r.name.text
  fields := ⟨r.fields.map fun f => (f.name.text, f.type.text)⟩
  range := some (d.rangeOf pos (pos + r.render.length : Nat))
  uri := some d.uri

def Function.signature (owner : Option String) (f : Function) : Signature where
  name := f.name.text
  parameters := f.parameters.map fun p => ⟨p.name.text, p.type.text⟩
  returnType := optionalText f.result
  range := some (d.rangeOf pos (pos + f.header.length : Nat))
  uri := some d.uri
  owner := owner

def Class.definition (c : Class) : ClassDefinition where
  name := c.name.text
  methods := ⟨(c.placedMethods pos).map fun m =>
    (m.2.name.text, m.2.signature d m.1 (some c.name.text))⟩
  range := d.rangeOf pos (pos + c.render.length : Nat)
  uri := d.uri

/-- The type of a value, `fs` being the functions of the file. -/
def Value.type (fs : List (Nat × Function)) : Value → String
  | .boolean _ => "bool"
  | .nil => "nil"
  | .integer _ _ => "int"
  | .decimal _ _ _ => "float"
  | .call callee =>
    if callee.text = "input" then "string"
    else ((fs.find? (·.2.name.text = callee.text)).map fun f => optionalText f.2.result).getD ""

def Binding.declared (fs : List (Nat × Function)) (b : Binding) : Variable where
  name := b.name.text
  type := (b.type.map (·.text)).getD (b.value.type fs)
  range := d.rangeOf pos (pos + b.render.length : Nat)
  isConst := b.isConst

end

def document (uri : String) (blank : Nat) (ds : List Declaration) : Document :=
  ⟨uri, 0, String.ofList (file blank ds)⟩

/-- The table of a file: its declarations in order. -/
def table (uri : String) (blank : Nat) (ds : List Declaration) : SymbolTable :=
  let d := document uri blank ds
  { uri
    imports := []
    types := ⟨(records ds).map fun r => (r.2.name.text, r.2.definition d r.1)⟩
    functions := ⟨(functions ds).map fun f => (f.2.name.text, f.2.signature d f.1 none)⟩
    classes := ⟨(classes ds).map fun c => (c.2.name.text, c.2.definition d c.1)⟩
    vars := ⟨(bindings ds).map fun b => (b.2.name.text, b.2.declared d b.1 (functions ds))⟩ }

end BurnLens.Source
