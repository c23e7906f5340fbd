import Cool.Class.Table
import Cool.Dump.Document

/-!
Class tables as documents, with names as texts or as what they are made of.
-/
namespace Cool.Dump

open Document (nat)

/-- How names and records are shown. -/
structure TableShape where
  className : ClassName → Document
  member : Bytes → Document
  /-- What a record is called. -/
  called : String → String

def byteList (bs : Bytes) : Document := .list (bs.map fun b => nat b.toNat)

def fullClassName : ClassName → Document
  | .builtin b => .wrap "Builtin" (.unit b.text)
  | .named name => .wrap "Named" (byteList name)
  | .selfType => .unit "SelfType"

def plainTable : TableShape where
  className c := .text c.display
  member name := .text (Utf8.lossy name)
  called _ := ""

def fullTable : TableShape where
  className := fullClassName
  member := byteList
  called name := name

namespace TableShape

def methodType (sh : TableShape) (m : MethodType) : Document :=
  .record (sh.called "MethodTy") [("params", .list (m.params.map sh.className)),
    ("ret", sh.className m.result)]

def attributeType (sh : TableShape) (c : ClassName) : Document :=
  .record (sh.called "FieldTy") [("ty", sh.className c)]

def entry (sh : TableShape) (e : ClassEntry) : Document :=
  .record (sh.called "ClassIndex") [("parent", .option sh.className e.parent),
    ("methods", .map (e.methods.map fun (name, m) => (sh.member name, sh.methodType m))),
    ("fields", .map (e.attributes.map fun (name, c) => (sh.member name, sh.attributeType c)))]

def entries (sh : TableShape) (t : ClassTable) : Document :=
  .map (t.classes.map fun (c, e) => (sh.className c, sh.entry e))

end TableShape

/-- The classes by name. -/
def plainClassTable (t : ClassTable) : Document := plainTable.entries t

def fullClassTable (t : ClassTable) : Document :=
  .record "TypeCtx" [("classes", fullTable.entries t)]

end Cool.Dump
