import Cool.Dump.Document
import Cool.Tree.Basic

/-!
Program trees as documents. `Shape` fixes how much is shown: a plain tree has names as texts and
places without their file, a full one has every wrapper and every place.
-/
namespace Cool.Dump

open Document (nat)

/-- How names, places and records are shown. -/
structure Shape where
  name : Name → Document
  typeName : TypeName → Document
  span : Span → Document
  string : Bytes → Span → Document
  /-- What a record is called. -/
  called : String → String

/-- The numbers of a place. -/
def coordinates (p : Position) : List (String × Document) :=
  [("byte", nat p.byte), ("line", nat p.line), ("col", nat p.col)]

/-- Places without their file. -/
def plainSpan (s : Span) : Document :=
  .record "" [("start", .record "" (coordinates s.start)),
    ("end", .record "" (coordinates s.stop))]

def fullPosition (p : Position) : Document :=
  .record "Position"
    (("src", .option (fun n => .wrap "SourceId" (nat n)) p.file) :: coordinates p)

def fullSpan (s : Span) : Document :=
  .record "Span" [("start", fullPosition s.start), ("end", fullPosition s.stop)]

def fullName (text : Bytes) (span : Span) : Document :=
  .record "Name" [("span", fullSpan span), ("value", .bytes text)]

def plain : Shape where
  name n := .text n.display
  typeName t := .text t.display
  span := plainSpan
  string value _ := .text (Utf8.lossy value)
  called _ := ""

def full : Shape where
  name n := fullName n.text n.span
  typeName t := .wrap "TyName" (fullName t.text t.span)
  span := fullSpan
  string value span := .record "StringLit" [("span", fullSpan span), ("value", .bytes value)]
  called name := name

namespace Shape

def record (sh : Shape) (name : String) (fields : List (String × Document)) : Document :=
  .record (sh.called name) fields

/-- A record that is one of several alternatives. -/
def variant (sh : Shape) (alternative name : String) (fields : List (String × Document)) :
    Document :=
  .wrap alternative (sh.record name fields)

/-- A literal, which knows its place. -/
def literal (sh : Shape) (alternative name : String) (value : Document) (span : Span) : Document :=
  .wrap alternative (.wrap (sh.called name)
    (sh.record "Spanned" [("value", value), ("span", sh.span span)]))

def call (sh : Shape) (receiver : Document) (method : Name) (args : List Document) (span : Span) :
    Document :=
  sh.variant "Call" "Call" [("receiver", receiver), ("method", sh.name method),
    ("args", .list args), ("span", sh.span span)]

def binding (sh : Shape) (name : Name) (type : TypeName) (init : Document) (span : Span) :
    Document :=
  sh.record "Binding" [("name", sh.name name), ("ty", sh.typeName type), ("init", init),
    ("span", sh.span span)]

mutual

def expr (sh : Shape) : Expr → Document
  | .assign name value span => sh.variant "Assignment" "Assignment"
      [("name", sh.name name), ("expr", sh.expr value), ("span", sh.span span)]
  | .selfCall method args span => sh.call (.unit "SelfType") method (sh.exprs args) span
  | .call receiver method args span =>
    sh.call (.wrap "Dynamic" (sh.expr receiver)) method (sh.exprs args) span
  | .staticCall receiver type method args span =>
    sh.call (.record "Static" [("object", sh.expr receiver), ("ty", sh.typeName type)]) method
      (sh.exprs args) span
  | .cond test yes no span => sh.variant "If" "If"
      [("antecedent", sh.expr test), ("consequent", sh.expr yes), ("alternative", sh.expr no),
       ("span", sh.span span)]
  | .loop test body span => sh.variant "While" "While"
      [("condition", sh.expr test), ("body", sh.expr body), ("span", sh.span span)]
  | .block body span => sh.variant "Block" "Block"
      [("body", .list (sh.exprs body)), ("span", sh.span span)]
  | .letIn bindings body span => sh.variant "Let" "Let"
      [("bindings", .list (sh.bindings bindings)), ("expr", sh.expr body), ("span", sh.span span)]
  | .case scrutinee arms span => sh.variant "Case" "Case"
      [("scrutinee", sh.expr scrutinee), ("arms", .list (sh.arms arms)), ("span", sh.span span)]
  | .new type span => sh.variant "New" "New" [("ty", sh.typeName type), ("span", sh.span span)]
  | .binary op left right span => sh.variant "BinOp" "BinOpExpr"
      [("op", .unit op.name), ("lhs", sh.expr left), ("rhs", sh.expr right),
       ("span", sh.span span)]
  | .unary op operand span => sh.variant "UnOp" "UnOpExpr"
      [("op", .unit op.name), ("expr", sh.expr operand), ("span", sh.span span)]
  | .name name => .wrap "Name" (.wrap (sh.called "NameExpr") (sh.name name))
  | .group inner span => sh.variant "Group" "Group"
      [("expr", sh.expr inner), ("span", sh.span span)]
  | .int value span => sh.literal "Int" "IntLit" (.int value) span
  | .string value span => .wrap "String" (sh.string value span)
  | .bool value span => sh.literal "Bool" "BoolLit" (.bool value) span

def exprs (sh : Shape) : List Expr → List Document
  | [] => []
  | e :: es => sh.expr e :: sh.exprs es

def bindings (sh : Shape) : List (Binding Expr) → List Document
  | [] => []
  | ⟨name, type, some init, span⟩ :: bs =>
    sh.binding name type (.some (sh.expr init)) span :: sh.bindings bs
  | ⟨name, type, none, span⟩ :: bs => sh.binding name type .none span :: sh.bindings bs

def arms (sh : Shape) : List (CaseArm Expr) → List Document
  | [] => []
  | ⟨name, type, body, span⟩ :: as =>
    sh.record "CaseArm" [("name", sh.name name), ("ty", sh.typeName type), ("expr", sh.expr body),
      ("span", sh.span span)] :: sh.arms as

end

def formal (sh : Shape) (f : Formal) : Document :=
  sh.record "Formal" [("name", sh.name f.name), ("ty", sh.typeName f.type),
    ("span", sh.span f.span)]

def feature (sh : Shape) : Feature → Document
  | .method m => sh.variant "Method" "Method"
      [("name", sh.name m.name), ("params", .list (m.params.map sh.formal)),
       ("return_ty", sh.typeName m.result), ("body", sh.expr m.body), ("span", sh.span m.span)]
  | .attribute a => .wrap "Field" (.wrap (sh.called "Field")
      (sh.binding a.name a.type (.option sh.expr a.init) a.span))

def classDecl (sh : Shape) (c : ClassDecl) : Document :=
  sh.record "Class" [("name", sh.typeName c.name), ("inherits", .option sh.typeName c.parent),
    ("features", .list (c.features.map sh.feature)), ("span", sh.span c.span)]

def program (sh : Shape) (p : Program) : Document :=
  sh.record "Program" [("classes", .list (p.classes.map sh.classDecl)), ("span", sh.span p.span)]

end Shape

end Cool.Dump
