import Cool.Proofs.Lowering.FunctionNames
import Cool.Proofs.Lowering.RegisterTyping

/-!
The functions of a program keep to their signatures, where the checker and code generation take its
calls and names alike.
-/
namespace Cool

open LowerEnv
open Bril (Instr Kind Result Signature Function)
open FunctionState (tempName Keeps Extends)
open Relation (ReflTransGen)

section Places

theorem Child.part {env : LowerEnv} {a b : Site} (h : Child env a b) :
    Part ⟨a.locals, a.expr⟩ ⟨b.locals, b.expr⟩ := by
  cases h with
  | value => exact .value
  | selfArgument => exact .selfArgument (by simp)
  | receiver => exact .receiver
  | argument => exact .argument (by simp)
  | staticReceiver => exact .staticReceiver
  | staticArgument => exact .staticArgument (by simp)
  | test => exact .test
  | yes => exact .yes
  | no => exact .no
  | loopTest => exact .loopTest
  | loopBody => exact .loopBody
  | item => exact .item (by simp)
  | init => exact .init
  | body => exact .body
  | left => exact .left
  | right => exact .right
  | operand => exact .operand
  | inner => exact .inner

theorem subterms_of_descendant {env : LowerEnv} {a b : Site} (h : ReflTransGen (Child env) a b) :
    b.expr.subterms ⊆ a.expr.subterms := by
  induction h with
  | refl => exact List.Subset.refl _
  | tail _ hc ih => exact List.Subset.trans hc.part.subterms ih

theorem Occurs.stands {t : ClassTable} {e : Entry} {c : ClassDecl} {entry : Option Method}
    {site : Site} (h : Occurs t e c entry site) : Stands c ⟨site.locals, site.expr⟩ := by
  obtain ⟨root, hr, hd⟩ := h
  induction hd with
  | refl =>
    cases hr with
    | method hm | entry hm => exact .method hm
    | «attribute» _ _ has _ init =>
      exact .attribute (has ▸ List.mem_append_right _ List.mem_cons_self) init
  | tail _ hc ih => exact .part ih hc.part

end Places

section Coherence

def Entry.nowhere : Entry := ⟨[], []⟩

variable (t : ClassTable) (e : Entry) (classes : List ClassDecl)

/-- Whether the parameters of the method that the program starts with are called otherwise than the
attributes. -/
def EntryShown : Prop :=
  ∀ c ∈ classes, ∀ m ∈ c.methods, (c.lowerEnv t).isEntry e m = true →
    ∀ n ∈ m.params.map (·.name.text), t.slot? c.className n = none

/-- Whether the checker and code generation understand a program alike: calls are those of the
methods that were found, their arguments and values of type `SELF_TYPE` are of the classes that they
are taken to be of, and a name means one member, or one variable. -/
structure Coherent : Prop where
  calls : CallsAgree t e classes
  params : ParamsAgree t classes
  selfTypes : SelfTypesKept t classes
  names : ¬ Clash .nowhere classes
  shown : EntryShown t e classes

end Coherence

section Functions

variable {files : SourceFiles} {classes : List ClassDecl} {t : ClassTable} {e : Entry}
  {c : ClassDecl} {f : Function} {w : Setting} {s u : FunctionState} {k : Kinds}
  {code : List Instr}

def startKinds (self : Kind ClassName) : Kinds :=
  Function.update (fun _ => .value none) selfReg self

theorem Accepted.fair (h : Accepted files classes t) (kept : SelfTypesKept t classes)
    (hc : c ∈ classes) (role : Role)
    (self : Bril.Fits t.layout role.here role.self (.value c.className.kind)) :
    (Setting.mk (c.lowerEnv t) classes role).Fair where
  regular := h.regular
  outlines := h.outlines
  kept := kept.attributes
  notBuiltin := (h.admits hc).notBuiltin
  notSelf := (h.admits hc).notSelfType
  self := self

theorem Coherent.allCalm (h : Accepted files classes t) (coherent : Coherent t e classes)
    (hc : c ∈ classes) {entry : Option Method} {root : Site} (hr : Root t e c entry root) :
    AllCalm (c.lowerEnv t) (hiddenIn entry) root where
  toFits := h.fits_root hc hr
  within site hd :=
    { directed := coherent.calls c hc entry site ⟨root, hr, hd⟩
      passes := fun calls found =>
        coherent.params c hc _ (Occurs.stands ⟨root, hr, hd⟩) _ _ _ ⟨_, _, calls, found⟩ }

theorem EntryShown.hidden (shown : EntryShown t e classes) (hc : c ∈ classes)
    {entry : Option Method} {root : Site} (hr : Root t e c entry root) :
    ∀ n ∈ hiddenIn entry, (c.lowerEnv t).table.slot? (c.lowerEnv t).self n = none := by
  cases entry with
  | none => exact List.forall_mem_nil _
  | some m =>
    obtain ⟨hm, isEntry⟩ := Occurs.entry ⟨root, hr, .refl⟩
    exact shown c hc m hm isEntry

/-- The registers of a whole expression of a program get kinds with which its code is right. -/
theorem Coherent.settles (h : Accepted files classes t) (coherent : Coherent t e classes)
    (hc : c ∈ classes) (role : Role)
    (self : Bril.Fits t.layout role.here role.self (.value c.className.kind))
    {entry : Option Method} {L : Scopes ClassName} {body : Expr} {x : Lowered}
    (hr : Root t e c entry ⟨L, s, body⟩) (lowers : Lowers (c.lowerEnv t) s body x u) :
    Settles role.kinds s u fun m => (Setting.mk (c.lowerEnv t) classes role).Right m x.code ∧
      (Setting.mk (c.lowerEnv t) classes role).Placed m L body x :=
  lowers.settles (w := ⟨c.lowerEnv t, classes, role⟩) (h.fair coherent.selfTypes hc role self)
    (coherent.shown.hidden hc hr) (coherent.allCalm h hc hr)

theorem Coherent.method (h : Accepted files classes t) (coherent : Coherent t e classes)
    (hc : c ∈ classes) {m : Method} (hm : m ∈ c.methods)
    (notEntry : (c.lowerEnv t).isEntry e m = false)
    (made : (Member.method c m).function t e = .ok f) {r : Result ClassName}
    (returns : Returns t c.className m.type.result r) :
    f.Typed t.layout (Signed t classes)
      ⟨c.className.kind, m.type.params.map fun p => (p.resolve c.className).kind, r⟩ := by
  cases Member.makes_of_function made with
  | entry isEntry => exact absurd (notEntry.symm.trans isEntry) nofun
  | method _ bound body =>
    have root : Root t e c none ⟨m.locals, _, m.body⟩ := .method hm notEntry bound
    have words := ((h.wellFormed hc).method hm).1
    obtain ⟨l, ⟨kinds, code, placed⟩, knows⟩ := ((bindParams_settles bound words).bind
      (coherent.settles h hc ⟨c.className.kind, some r, .receiver⟩
        (.receiver (Bril.Under.refl _)) root body)).solve
    refine ⟨l, ?_, ?_⟩
    · rw [List.map_cons, knows.self, kinds]
      simp [Method.type, ClassDecl.lowerEnv]
    · refine List.forall_mem_append.mpr ⟨code, List.forall_mem_singleton.mpr (.ret rfl ?_)⟩
      obtain ⟨T, hT, conforms⟩ := ((h.admits hc).method hm).body
      have fair := h.fair coherent.selfTypes hc ⟨c.className.kind, some r, .receiver⟩
        (.receiver (Bril.Under.refl _))
      cases returns with
      | receiver isSelf extended =>
        have yields := (coherent.selfTypes.results c hc m hm isSelf).resolve_right extended
        rw [placed.self yields extended]
        exact .refl _
      | value _ => exact (placed.fits T hT).under (fair.outlines.under_conforms fair.kept conforms)

structure LowerEnv.Admits (env : LowerEnv) (a : Attribute) : Prop where
  own : env.table.ownAttribute? env.self a.name.text = some a.type.className
  first : ∀ init ∈ a.init, ∃ T, Typed (env.typing .empty) init T ∧
    env.table.conforms T a.type.className env.self = true

theorem Sets.settles {a : Attribute} (fair : w.Fair) (h : Sets w.env s a code u)
    (admits : w.env.Admits a) (calm : ∀ init ∈ a.init, AllCalm w.env [] ⟨.empty, s, init⟩) :
    Settles w.role.kinds s u fun m => w.Right m code := by
  cases h with
  | @init t _ init x i type present lowers slot =>
    obtain ⟨T, hT, conforms⟩ := admits.first init present
    refine ((lowers.settles fair (List.forall_mem_nil _) (calm init present)).bind
      (fair.address t i)).imp ?_
    rintro m _ ⟨⟨code, placed⟩, address, target⟩
    have value := (placed.fits T hT).under (fair.outlines.under_conforms fair.kept conforms)
    simp only [Setting.right_append, Setting.right_cons, Setting.right_nil, and_true]
    refine ⟨⟨code, address⟩, .store target (Setting.layout_slot slot) ?_⟩
    rw [fair.outlines.slot?_own fair.regular admits.own slot]
    exact value
  | @default _ v i type absent value slot =>
    refine ((Settles.temp s (.value Option.none)).bind (fair.address (s.skip 1) i)).imp ?_
    rintro m _ ⟨temp, address, target⟩
    simp only [Setting.right_append, Setting.right_cons, Setting.right_nil, and_true]
    refine ⟨⟨.literal temp, address⟩, .store target (Setting.layout_slot slot) ?_⟩
    rw [fair.outlines.slot?_own fair.regular admits.own slot, temp,
      ClassName.kind_of_default? value]
    exact .refl _
  | none => exact .here (.skip s 1) fun _ _ => Setting.right_nil

theorem setAttributes_settles {as : List Attribute} (fair : w.Fair)
    (h : (w.env.setAttributes as).run s = .ok code u) (admits : ∀ a ∈ as, w.env.Admits a)
    (calm : ∀ a v, SetFrom w.env s as a v →
      ∀ init ∈ a.init, AllCalm w.env [] ⟨.empty, v, init⟩) :
    Settles w.role.kinds s u fun m => w.Right m code := by
  induction as generalizing s code with
  | nil =>
    cases h
    exact .here (.refl _) fun _ _ => Setting.right_nil
  | cons a as ih =>
    rw [List.forall_mem_cons] at admits
    obtain ⟨_, _, _, set, sets, rfl⟩ := run_setAttributes_cons_eq_ok.mp h
    exact (((Sets.of_run set).settles fair admits.1 (calm a s .head)).bind
      (ih sets admits.2 fun b v later => calm b v (later.tail set))).imp
      fun _ _ => Setting.right_append.mpr

theorem parentCall_settles {entry : ClassEntry} (fair : w.Fair)
    (h : (parentCall entry).run s = .ok code u)
    (parent : ∀ p ∈ entry.parent, w.env.table.parent? w.env.self = some p) :
    Settles w.role.kinds s u fun m => w.Right m code := by
  obtain ⟨rfl, rfl⟩ | ⟨p, isParent, notBuiltin, rfl, rfl⟩ := parentCall_ok h
  · exact .here (.refl _) fun _ _ => Setting.right_nil
  have above := parent p isParent
  obtain ⟨d, hd, rfl⟩ := (fair.outlines.contains_iff_mem notBuiltin).mp
    (fair.outlines.contains_parent above)
  have inherits : d.className ∈ w.env.table.lineage w.env.self := by
    rw [fair.outlines.lineage_eq, above]
    exact List.mem_cons_of_mem _ (w.env.table.mem_lineage_self _)
  refine (Settles.temp s (.value none)).imp fun m knows dest =>
    Setting.right_cons.mpr ⟨.call (.constructor hd) ?_ .nil ?_, Setting.right_nil⟩
  · exact (fair.fits_self knows).under (fair.outlines.under fair.kept inherits)
  · rw [dest]
    exact .any _

theorem Coherent.constructor (h : Accepted files classes t) (coherent : Coherent t e classes)
    (hc : c ∈ classes) (made : (Member.constructor c).function t e = .ok f) :
    f.Typed t.layout (Signed t classes) ⟨c.className.kind, [], .receiver⟩ := by
  cases Member.makes_of_function made with | @constructor _ entry _ _ _ _ found called set =>
  have fair := h.fair coherent.selfTypes hc ⟨c.className.kind, some .receiver, .receiver⟩
    (.receiver (Bril.Under.refl _))
  have parent : ∀ p ∈ entry.parent, t.parent? c.className = some p := by
    intro p hp
    unfold ClassTable.parent?
    rw [found]
    exact hp
  have admits : ∀ a ∈ c.attributes, (c.lowerEnv t).Admits a := fun a ha =>
    ⟨(h.admits hc).own a ha, fun _ init => (h.admits hc).firstValue ha init⟩
  obtain ⟨l, ⟨call, code⟩, knows⟩ := ((parentCall_settles fair called parent).bind
    (setAttributes_settles fair set admits fun a v ⟨before, after, code, has, done⟩ init hinit =>
      coherent.allCalm h hc (.attribute found called has done hinit))).solve
  refine ⟨l, by rw [List.map_singleton, knows.self]; rfl, ?_⟩
  refine List.forall_mem_append.mpr ⟨List.forall_mem_append.mpr ⟨call, code⟩,
    List.forall_mem_singleton.mpr (.ret rfl ?_)⟩
  rw [knows.self]
  exact .refl _

/-- The code that a program starts with is right, up to where it frees its objects. -/
theorem Coherent.entry (h : Accepted files classes t) (coherent : Coherent t e classes)
    (hc : c ∈ classes) {m : Method} (hm : m ∈ c.methods)
    (isEntry : (c.lowerEnv t).isEntry e m = true)
    (made : (Member.method c m).function t e = .ok f) : f.Starts t.layout (Signed t classes) := by
  cases Member.makes_of_function made with
  | method notEntry => exact absurd (notEntry.symm.trans isEntry) nofun
  | @entry _ _ x u _ body =>
    have fair := h.fair coherent.selfTypes hc ⟨none, none, .value c.className.kind⟩ (.refl _)
    have root : Root t e c (some m) ⟨m.locals, FunctionState.initial.skip 1, m.body⟩ :=
      .entry hm isEntry
    obtain ⟨l, ⟨size, code, _⟩, knows⟩ :=
      ((Settles.temp .initial (.number (t.objectSize c.className))).bind
        (coherent.settles h hc ⟨none, none, .value c.className.kind⟩ (.refl _) root body)).solve
    refine ⟨l, [Instr.literal (tempName 0) (.int (t.objectSize c.className)),
        Instr.compute .alloc selfReg .object [tempName 0]] ++
        [Instr.call selfReg .object c.className.constructorName [selfReg]] ++ x.code,
      [Instr.perform .free [selfReg]] ++ u.takePending.1.map (fun reg => Instr.perform .free [reg])
        ++ [Instr.ret none], ?_, ?_, ?_⟩
    · simp only [List.append_assoc, List.cons_append, List.nil_append]
    · intro i hi
      simp only [List.mem_append, List.mem_map, List.mem_singleton] at hi
      rcases hi with (rfl | ⟨reg, _, rfl⟩) | rfl
      · exact .inl ⟨_, rfl⟩
      · exact .inl ⟨reg, rfl⟩
      · exact .inr rfl
    · have alloc : (Setting.mk (c.lowerEnv t) classes ⟨none, none, .value c.className.kind⟩).Right l
          [.literal (tempName 0) (.int (t.objectSize c.className)),
            .compute .alloc selfReg .object [tempName 0]] :=
        Setting.right_alloc size knows.self
      refine Setting.right_append.mpr ⟨Setting.right_append.mpr ⟨alloc, ?_⟩, code⟩
      exact fair.construct (h.admits hc).notBuiltin (h.admits hc).known knows.self

end Functions

section Program

variable {files : SourceFiles} {classes : List ClassDecl} {t : ClassTable} {e : Entry}
  {p : Bril.Program} {f : Function}

theorem outInt_typed (L : Bril.Layout ClassName) (signed : String → Signature ClassName → Prop) :
    ∀ f ∈ builtinFunctions, f.Typed L signed ⟨none, [none], .receiver⟩ := by
  refine List.forall_mem_singleton.mpr ⟨startKinds .receiver, by simp [startKinds, selfReg], ?_⟩
  refine List.forall_mem_cons.mpr ⟨.print, List.forall_mem_singleton.mpr (.ret rfl ?_)⟩
  exact .refl _

theorem not_isEntry_nowhere {b : Member} (named : b.owner.Named) : ¬ b.IsEntry .nowhere := by
  cases b with
  | constructor => exact id
  | method c m =>
    rintro ⟨empty, _⟩
    unfold ClassDecl.className TypeName.className at empty
    rw [ClassName.bytes_ofBytes] at empty
    have identifier := named.1.2
    rw [show (Member.method c m).owner.name.text = [] from empty] at identifier
    cases identifier

theorem of_find? {name : String} (found : p.find? name = some f) :
    f ∈ p.functions ∧ f.name = name := by
  unfold Bril.Program.find? at found
  exact ⟨List.mem_of_find?_eq_some found, by simpa using List.find?_some found⟩

theorem function_of_name (h : Accepted files classes t) (made : generate t e classes = .ok p)
    (names : ¬ Clash .nowhere classes) {b : Member} (hb : b ∈ membersOf t classes)
    (found : p.find? (b.owner.className.memberName b.label) = some f) :
    b.function t e = .ok f ∧ ¬ b.IsEntry e := by
  obtain ⟨known, declared⟩ := mem_membersOf.mp hb
  have named := h.named known
  obtain ⟨hf, name⟩ := of_find? found
  have name : f.name = b.functionName .nowhere := by
    unfold Member.functionName
    rw [if_neg (not_isEntry_nowhere named), name]
  rcases builtin_or_member made hf with builtin | ⟨d, hd, function⟩
  · have mem : f.name ∈ builtinFunctions.map (·.name) := List.mem_map.mpr ⟨f, builtin, rfl⟩
    rw [name] at mem
    exact absurd mem
      (Member.functionName_not_builtin named declared (h.admits known).notBuiltin)
  obtain ⟨known', declared'⟩ := mem_membersOf.mp hd
  have named' := h.named known'
  have same := (Member.function_profile function).1.symm.trans name
  have notEntry : ¬ d.IsEntry e := by
    intro isEntry
    rw [Member.functionName.eq_def e d, if_pos isEntry] at same
    exact Member.functionName_ne_entryName named declared (not_isEntry_nowhere named) same.symm
  rw [Member.functionName_of_not_isEntry named' declared' notEntry,
    ← Member.functionName_of_not_isEntry named' declared' (not_isEntry_nowhere named')] at same
  obtain rfl := functionName_inj h names hd hb same
  exact ⟨function, notEntry⟩

theorem entry_of_main (h : Accepted files classes t) (made : generate t e classes = .ok p)
    (found : p.find? entryName = some f) : ∃ c ∈ classes, ∃ m ∈ c.methods,
      (c.lowerEnv t).isEntry e m = true ∧ (Member.method c m).function t e = .ok f := by
  obtain ⟨hf, name⟩ := of_find? found
  rcases builtin_or_member made hf with builtin | ⟨b, hb, function⟩
  · cases List.mem_singleton.mp builtin
    exact absurd name (by decide)
  obtain ⟨known, declared⟩ := mem_membersOf.mp hb
  have isEntry : b.IsEntry e := by
    by_contra notEntry
    exact Member.functionName_ne_entryName (h.named known) declared notEntry
      ((Member.function_profile function).1.symm.trans name)
  cases b with
  | constructor => exact isEntry.elim
  | method c m =>
    exact ⟨c, known, m, declared, Member.isEntry_iff.mpr isEntry, function⟩

/-- A coherent program has types with which it is right. -/
theorem Coherent.program (h : Accepted files classes t) (coherent : Coherent t e classes)
    (made : generate t e classes = .ok p) : p.Typed t.layout (Signed t classes) where
  function := by
    intro name sig f signed found _
    cases signed with
    | outInt =>
      obtain ⟨fs, _, functions⟩ := generate_functions made
      refine outInt_typed _ _ f ?_
      unfold Bril.Program.find? at found
      rw [functions] at found
      cases found
      exact List.mem_cons_self
    | @constructor c hc =>
      have hb : Member.constructor c ∈ membersOf t classes := mem_membersOf.mpr ⟨hc, trivial⟩
      exact coherent.constructor h hc (function_of_name h made coherent.names hb found).1
    | @method c m r hc hm returns =>
      have hb : Member.method c m ∈ membersOf t classes := mem_membersOf.mpr ⟨hc, hm⟩
      obtain ⟨function, notEntry⟩ := function_of_name h made coherent.names hb found
      have notEntry : (c.lowerEnv t).isEntry e m = false := Member.isEntry_eq_false.mpr notEntry
      exact coherent.method h hc hm notEntry function returns
  main := by
    intro f found
    obtain ⟨c, hc, m, hm, isEntry, function⟩ := entry_of_main h made found
    exact coherent.entry h hc hm isEntry function

end Program

end Cool
