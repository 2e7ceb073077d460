import Diversity.Description.Basic
import Diversity.Description.Cursor
/-! Descriptions from their text, which is JSON. -/
namespace Diversity.Description

namespace Reader

/-- Opens a list or map, reads what is in it and closes it. -/
def inside {α : Type} (body : Reader α) (close : Reader Unit) : Reader α := do
  let room := (← get).room
  if room = 0 then failAtNext .malformed
  modify ({ · with room := room - 1 })
  advance
  let a ← place (closeAfter body close)
  modify ({ · with room })
  return a

/-- As many elements as a list has. -/
def elements {α : Type} (element : Reader α) : Nat → Bool → Reader (List α)
  | 0, _ => return []
  | fuel + 1, isFirst => do
    if ← hasElement isFirst then
      let a ← element
      return a :: (← elements element fuel false)
    else return []

/-- A list. Each element takes at least one character. -/
def list {α : Type} (element : Reader α) : Reader (List α) := do
  match ← token with
  | '[' => inside (do elements element ((← get).rest.length + 1) true) closeList
  | c => wrongKind c "a sequence"

/-- A field of a record, and how its value changes the record. -/
structure Member (α : Type) where
  name : String
  isRequired : Bool
  read : Reader (α → α)

/-- What a record looks like. Only a strict one refuses fields that it does not know. -/
structure Form (α : Type) where
  /-- The name of the form in faults. -/
  name : String
  isStrict : Bool
  /-- The record before any field is read. -/
  blank : α
  fields : List (Member α)

/-- The members of a map in any order. -/
def members {α : Type} (form : Form α) : Nat → Bool → List String → α → Reader α
  | 0, _, _, a => return a
  | fuel + 1, isFirst, given, a => do
    if ← hasKey isFirst then
      let name ← key
      match form.fields.find? (·.name == name) with
      | some field =>
        if given.contains name then failUnplaced (.duplicateField name)
        colon
        let set ← field.read
        members form fuel false (name :: given) (set a)
      | none =>
        if form.isStrict then failUnplaced (.unknownField name (form.fields.map (·.name)))
        colon
        skip
        members form fuel false given a
    else
      match form.fields.find? fun f => f.isRequired && !given.contains f.name with
      | some field => failUnplaced (.missingField field.name)
      | none => return a

/-- The fields of a record as the elements of a list. -/
def columns {α : Type} (form : Form α) : Nat → List (Member α) → α → Reader α
  | _, [], a => return a
  | i, field :: fields, a => do
    if ← hasElement (i == 0) then
      let set ← field.read
      columns form (i + 1) fields (set a)
    else if field.isRequired then
      failUnplaced (.tooShort i (form.name ++ " with " ++ toString form.fields.length ++ " elements"))
    else columns form (i + 1) fields a

/-- A record: a map, or a list of its fields in order. -/
def record {α : Type} (form : Form α) : Reader α := do
  match ← token with
  | '\x7b' => inside (do members form ((← get).rest.length + 1) true [] form.blank) closeMap
  | '[' => inside (columns form 0 form.fields form.blank) closeList
  | c => wrongKind c form.name

/-- A tag and what follows it. -/
structure Tag (α : Type) where
  name : String
  /-- What a tag without content is told to be. -/
  wanted : String
  content : Reader α

def Tag.value {α : Type} (name : String) (content : Reader α) : Tag α :=
  ⟨name, "newtype variant", content⟩

/-- A tag in front of a record, from which `make` builds the value. -/
def Tag.record {α β : Type} (name formName : String) (blank : β) (fields : List (Member β))
    (make : β → α) : Tag α :=
  ⟨name, "struct variant", make <$> Reader.record ⟨"struct variant " ++ formName, false, blank, fields⟩⟩

/-- One of the tags. A value that is no text is not looked at any further. -/
def tag {α : Type} (tags : List (Tag α)) : Reader (Tag α) := do
  match ← token with
  | '"' =>
    let name ← key
    match tags.find? (·.name == name) with
    | some t => return t
    | none => place (failUnplaced (.unknownTag name (tags.map (·.name))))
  | _ => failAtNext .malformed

/-- A map with one key, its tag. -/
def tagged {α : Type} (tags : List (Tag α)) : Reader α := do
  match ← token with
  | '\x7b' =>
    let room := (← get).room
    if room = 0 then failAtNext .malformed
    modify ({ · with room := room - 1 })
    advance
    let t ← tag tags
    colon
    let a ← t.content
    modify ({ · with room })
    match ← peekToken with
    | some '\x7d' => advance; return a
    | some _ => failHere .malformed
    | none => failHere .truncated
  | '"' =>
    let t ← tag tags
    failUnplaced (.wrongKind .bareTag t.wanted)
  | _ => failAtNext .malformed

end Reader

open Reader

/-- A field that stores its value. -/
def required {α β : Type} (name : String) (read : Reader β) (store : α → β → α) : Member α :=
  ⟨name, true, do let b ← read; return (store · b)⟩

/-- A field that may be left out. -/
def defaulted {α β : Type} (name : String) (read : Reader β) (store : α → β → α) : Member α :=
  ⟨name, false, do let b ← read; return (store · b)⟩

/-- The tags of terms, given a reader for the terms inside. -/
def termTags (term : Reader Term) : List (Tag Term) :=
  [.value "var" (.var <$> string),
    .value "ref" (.ref <$> term),
    .value "deref" (.deref <$> term),
    .record "index" "ExprNode::Index" (default : Term × Term)
      [required "target" term fun r t => (t, r.2), required "index" term fun r t => (r.1, t)]
      fun (target, position) => .index target position,
    .record "call" "ExprNode::Call" (default : Term × List Term)
      [required "target" term fun r t => (t, r.2), defaulted "args" (list term) fun r l => (r.1, l)]
      fun (target, args) => .call target args,
    .record "op" "ExprNode::Op" (default : String × List Term)
      [required "op" string fun r s => (s, r.2), required "operands" (list term) fun r l => (r.1, l)]
      fun (symbol, operands) => .op symbol operands,
    .value "value" (.value <$> string),
    .record "cast" "ExprNode::Cast" (default : Term × String)
      [required "expr" term fun r t => (t, r.2), required "type" string fun r s => (r.1, s)]
      fun (target, type) => .cast target type,
    .value "sizeof_expr" (.sizeofExpr <$> term),
    .value "sizeof_type" (.sizeofType <$> string)]

/-- A term whose terms are nested at most `depth` deep. -/
def term : Nat → Reader Term
  | 0 => failAtNext .malformed
  | depth + 1 => tagged (termTags (term depth))

/-- A term. Every term inside it opens a map, so the depth is bounded by the room for maps. -/
def anyTerm : Reader Term := term (Cursor.maxDepth + 1)

def arm (statement : Reader Statement) : Reader Arm := do
  let (condition, body) ← record
    { name := "struct BranchNode", isStrict := true, blank := (default : Term × List Statement)
      fields := [required "condition" anyTerm fun r t => (t, r.2),
        defaulted "body" (list statement) fun r l => (r.1, l)] }
  return .mk condition body

/-- The tags of statements, given a reader for the statements inside. -/
def statementTags (statement : Reader Statement) : List (Tag Statement) :=
  [.record "assign" "StmtNode::Assign" (default : Term × Term)
      [required "target" anyTerm fun r t => (t, r.2), required "value" anyTerm fun r t => (r.1, t)]
      fun (target, value) => .assign target value,
    .value "call" (.call <$> string),
    .record "if" "StmtNode::If" (default : List Arm × Option (List Statement))
      [required "branches" (list (arm statement)) fun r l => (l, r.2),
        defaulted "else" (optional (list statement)) fun r l => (r.1, l)]
      fun (arms, otherwise) => .choice arms otherwise,
    .record "while" "StmtNode::While" (default : Term × List Statement)
      [required "condition" anyTerm fun r t => (t, r.2),
        defaulted "body" (list statement) fun r l => (r.1, l)]
      fun (condition, body) => .loop condition body,
    .value "expr" (.expr <$> anyTerm),
    .value "group" (.group <$> list statement)]

/-- A statement whose statements are nested at most `depth` deep. -/
def statement : Nat → Reader Statement
  | 0 => failAtNext .malformed
  | depth + 1 => tagged (statementTags (statement depth))

def anyStatement : Reader Statement := statement (Cursor.maxDepth + 1)

def externDeclaration : Reader Extern := record
  { name := "struct ExternDecl", isStrict := true, blank := default
    fields := [required "name" string fun e name => { e with name },
      required "type" string fun e type => { e with type }] }

def variableDeclaration : Reader Variable := record
  { name := "struct VariableDecl", isStrict := true, blank := default
    fields := [required "name" string fun v name => { v with name },
      required "type" string fun v type => { v with type },
      defaulted "initial" (optional anyTerm) fun v initial => { v with initial }] }

def chunk : Reader Chunk := record
  { name := "struct ChunkDecl", isStrict := true, blank := default
    fields := [defaulted "name" (optional string) fun c name => { c with name },
      defaulted "local" boolean fun c isLocal => { c with isLocal },
      defaulted "global" boolean fun c isGlobal => { c with isGlobal },
      defaulted "static" boolean fun c isStatic => { c with isStatic },
      defaulted "variables" (list variableDeclaration) fun c vars => { c with vars }] }

def block : Reader Block := record
  { name := "struct BlockDecl", isStrict := true, blank := default
    fields := [required "name" string fun b name => { b with name },
      defaulted "func" boolean fun b func => { b with func },
      defaulted "inline" boolean fun b inline => { b with inline },
      defaulted "nop" boolean fun b nop => { b with nop },
      defaulted "statements" (list anyStatement) fun b statements => { b with statements }] }

/-- A whole description; the entry is called `main` if nothing else is said. -/
def description : Reader Description := record
  { name := "struct Document", isStrict := true, blank := ⟨"main", [], [], []⟩
    fields := [defaulted "entry" string fun d entry => { d with entry },
      defaulted "externs" (list externDeclaration) fun d externs => { d with externs },
      defaulted "chunks" (list chunk) fun d chunks => { d with chunks },
      defaulted "blocks" (list block) fun d blocks => { d with blocks }] }

/-- Nothing but spaces may follow. -/
def endOfText : Reader Unit := do
  match ← peekToken with
  | none => return
  | some _ => failAtNext .malformed

/-- The description that a text writes. -/
def ofText (text : String) : Except Fault Description :=
  match (do let d ← description; endOfText; return d : Reader Description) (.start text) with
  | .ok d _ => .ok d
  | .error fault _ => .error fault

end Diversity.Description
