import Cool.Proofs.Bril.Steps
import Cool.Proofs.Class.Layout
import Cool.Proofs.Lowering.FunctionNames
import Mathlib.Data.Option.Defs

/-!
What constructors store. A constructor calls that of the parent, and then stores a first value to
the slot of each attribute that has one. It counts slots in its own class, while the object may be
one of a descendant; but objects of descendants begin with the same slots. So along the ancestors
of a class each first value goes to the slot that its attribute has there, in order.
-/
namespace Cool

open Bril (Instr)
open FunctionState (tempName)

/-- The store of the first value of an attribute: the code of the value, the registers of the value,
the offset and the address, and the slot. -/
structure FirstStore where
  field : Attribute
  code : List Instr
  value : String
  offset : String
  address : String
  slot : Nat

namespace FirstStore

/-- The code of the value and of the address. -/
def operands (x : FirstStore) : List Instr :=
  x.code ++ [.literal x.offset (.int x.slot),
    .compute .ptradd x.address .object [selfReg, x.offset]]

def instrs (x : FirstStore) : List Instr :=
  x.operands ++ [.perform .store [x.address, x.value]]

/-- The store of a value that code in front of it leaves in a register. -/
def behind (a : Attribute) (code : List Instr) (value : String) (s : FunctionState) (slot : Nat) :
    FirstStore :=
  ⟨a, code, value, tempName s.next, tempName (s.next + 1), slot⟩

end FirstStore

/-- The stores of the first values of attributes, from one state to another: of an initializer, or
else of the default, if the type has one. -/
inductive FirstStores (env : LowerEnv) :
    FunctionState → List Attribute → List FirstStore → FunctionState → Prop where
  | nil {s} : FirstStores env s [] [] s
  | init {s t u a e v slot as xs} : a.init = some e → (e.lower env).run s = .ok v t →
      FirstStores env (t.skip 2) as xs u →
      FirstStores env s (a :: as) (.behind a v.code v.dest t slot :: xs) u
  | default {s u a v slot as xs} : a.init = none →
      (a.type.className.resolve env.self).default? = some v →
      FirstStores env (s.skip 3) as xs u →
      FirstStores env s (a :: as)
        (.behind a [.literal (tempName s.next) v] (tempName s.next) (s.skip 1) slot :: xs) u
  | none {s u a as xs} : a.init = none → (a.type.className.resolve env.self).default? = none →
      FirstStores env (s.skip 1) as xs u → FirstStores env s (a :: as) xs u

/-- The call of the parent's constructor, unless the parent is built in, and the state behind it. -/
def ClassDecl.leading (c : ClassDecl) : List Instr × FunctionState :=
  if c.parentName.isBuiltin then ([], .initial)
  else ([.call (tempName 0) .object c.parentName.constructorName [selfReg]],
    FunctionState.initial.skip 1)

structure Construction where
  owner : ClassDecl
  stores : List FirstStore

namespace Construction

def function (k : Construction) : Bril.Function :=
  ⟨k.owner.className.constructorName, [⟨selfReg, .object⟩], some .object,
    k.owner.leading.1 ++ k.stores.flatMap FirstStore.instrs ++ [.ret (some selfReg)]⟩

def Stores (k : Construction) (t : ClassTable) : Prop :=
  ∃ u, FirstStores (k.owner.lowerEnv t) k.owner.leading.2 k.owner.attributes k.stores u

end Construction

/-- The constructors that run for a class, its own last. Each begins with the call of the one
before it, and the first with none, for its parent is built in. -/
inductive ConstructedBy (t : ClassTable) : ClassName → List Construction → Prop where
  | root {k : Construction} : k.owner.parentName.isBuiltin = true → k.Stores t →
      ConstructedBy t k.owner.className [k]
  | child {ks : List Construction} {k : Construction} : k.owner.parentName.isBuiltin = false →
      k.Stores t → ConstructedBy t k.owner.parentName ks →
      ConstructedBy t k.owner.className (ks ++ [k])

def Binding.Starts (a : Attribute) : Prop :=
  a.init.isSome ∨ a.type.className = .int ∨ a.type.className = .bool

instance (a : Attribute) : Decidable a.Starts := inferInstanceAs (Decidable (_ ∨ _))

def attributesOf (classes : List ClassDecl) (c : ClassName) : List Attribute :=
  (classes.find? (·.className = c)).elim [] ClassDecl.attributes

/-- The attributes of a class and its ancestors in the order of their slots. -/
def layoutOf (t : ClassTable) (classes : List ClassDecl) (c : ClassName) : List Attribute :=
  (t.lineage c).reverse.flatMap (attributesOf classes)

/-- How the first stores of constructors, in the order in which they run, cover the slots of a
class: each goes to the slot of its attribute, in order of the slots, and each slot of an attribute
with a first value gets one. -/
structure CoversSlots (layout : List Attribute) (stores : List FirstStore) : Prop where
  placed : ∀ x ∈ stores, layout[x.slot]? = some x.field ∧ x.field.Starts
  ordered : (stores.map (·.slot)).Pairwise (· < ·)
  covered : ∀ i a, layout[i]? = some a → a.Starts → ∃ x ∈ stores, x.slot = i

section Stores

variable {env : LowerEnv} {s u : FunctionState} {as : List Attribute} {xs : List FirstStore}

theorem default?_isSome_iff {c self : ClassName} (h : self.isBuiltin = false) :
    ((c.resolve self).default?).isSome = true ↔ c = .int ∨ c = .bool := by
  cases c with
  | builtin b =>
    cases b <;> simp [ClassName.resolve, ClassName.default?, ClassName.int, ClassName.bool]
  | named n => simp [ClassName.resolve, ClassName.default?, ClassName.int, ClassName.bool]
  | selfType =>
    cases self with
    | builtin b => cases h
    | named n => simp [ClassName.resolve, ClassName.default?, ClassName.int, ClassName.bool]
    | selfType => simp [ClassName.resolve, ClassName.default?, ClassName.int, ClassName.bool]

/-- The attributes that have a first value get it, in order. -/
theorem FirstStores.attributes (h : FirstStores env s as xs u)
    (user : env.self.isBuiltin = false) :
    xs.map (·.field) = as.filter (·.Starts) := by
  induction h with
  | nil => rfl
  | @init _ _ _ a _ _ _ _ _ init _ _ ih =>
    have starts : a.Starts := .inl (by rw [init]; rfl)
    simp [FirstStore.behind, ih, starts]
  | @default _ _ a _ _ _ _ _ value _ ih =>
    have starts : a.Starts := .inr ((default?_isSome_iff user).mp (by rw [value]; rfl))
    simp [FirstStore.behind, ih, starts]
  | @none _ _ a _ _ init value _ ih =>
    have starts : ¬ a.Starts := by
      rintro (first | type)
      · rw [init] at first
        cases first
      · have := (default?_isSome_iff user).mpr type
        rw [value] at this
        cases this
    simp [ih, starts]

/-- The code that sets attributes is that of their first stores, each to the slot that the class
has for the name. -/
theorem FirstStores.of_run {code : List Instr} (h : (env.setAttributes as).run s = .ok code u) :
    ∃ xs, FirstStores env s as xs u ∧ code = xs.flatMap FirstStore.instrs ∧
      ∀ x ∈ xs, ∃ type, env.table.slot? env.self x.field.name.text = some (x.slot, type) := by
  induction as generalizing s code with
  | nil =>
    cases h
    exact ⟨[], .nil, rfl, by simp⟩
  | cons a as ih =>
    obtain ⟨now, v, rest, ha, has, rfl⟩ := run_setAttributes_cons_eq_ok.mp h
    obtain ⟨xs, stores, rfl, slots⟩ := ih has
    cases Sets.of_run ha with
    | @init t _ _ _ slot type init value found =>
      exact ⟨.behind a _ _ t slot :: xs, .init init value.run stores,
        by simp [FirstStore.instrs, FirstStore.operands, FirstStore.behind, LowerEnv.addressCode],
        List.forall_mem_cons.mpr ⟨⟨type, found⟩, slots⟩⟩
    | @default _ _ slot type init value found =>
      exact ⟨.behind a _ _ (s.skip 1) slot :: xs, .default init value stores,
        by simp [FirstStore.instrs, FirstStore.operands, FirstStore.behind, LowerEnv.addressCode,
          FunctionState.skip],
        List.forall_mem_cons.mpr ⟨⟨type, found⟩, slots⟩⟩
    | none init value => exact ⟨xs, .none init value stores, rfl, slots⟩

end Stores

section Layout

variable {t : ClassTable} {classes : List ClassDecl} {c : ClassName}

theorem declaredAttributes_eq_map (classes : List ClassDecl) (c : ClassName) :
    declaredAttributes classes c =
      (attributesOf classes c).map fun a => (a.name.text, a.type.className) := by
  unfold declaredAttributes attributesOf
  cases classes.find? (·.className = c) <;> rfl

theorem attributesOf_of_mem (outlines : t.Outlines classes) {d : ClassDecl} (hd : d ∈ classes) :
    attributesOf classes d.className = d.attributes := by
  unfold attributesOf
  cases found : classes.find? (·.className = d.className) with
  | none =>
    have absent := List.find?_eq_none.mp found d hd
    simp at absent
  | some b =>
    have same : b.className = d.className := by simpa using List.find?_some found
    rw [outlines.className_inj (List.mem_of_find?_eq_some found) hd same]
    rfl

theorem layoutOf_eq (outlines : t.Outlines classes) (c : ClassName) : layoutOf t classes c =
    (t.parent? c).elim [] (layoutOf t classes) ++ attributesOf classes c := by
  rw [layoutOf, outlines.lineage_eq c, List.reverse_cons, List.flatMap_append,
    List.flatMap_singleton]
  cases t.parent? c <;> rfl

theorem layoutOf_allAttributes (typed : typecheck classes = .ok t) (c : ClassName) :
    (layoutOf t classes c).map (fun a => (a.name.text, a.type.className)) = t.allAttributes c := by
  rw [ClassTable.allAttributes_eq_flatMap, layoutOf, List.map_flatMap]
  congr 1
  funext d
  rw [(ClassTable.ownAttributes_of_typecheck typed).1, declaredAttributes_eq_map]

theorem layoutOf_names_nodup (typed : typecheck classes = .ok t) (c : ClassName) :
    ((layoutOf t classes c).map (·.name.text)).Nodup := by
  have distinct := (ClassTable.outlines_of_typecheck typed).allAttributes_nodup
    (typecheck_ok typed).1 (ClassTable.ownAttributes_of_typecheck typed).2 c
  rw [← layoutOf_allAttributes typed, List.map_map] at distinct
  exact distinct

theorem layoutOf_slot? (typed : typecheck classes = .ok t) {a : Attribute} {i : Nat}
    {type : ClassName} (ha : a ∈ layoutOf t classes c)
    (slot : t.slot? c a.name.text = some (i, type)) : (layoutOf t classes c)[i]? = some a := by
  have there := ClassTable.slot?_eq_some slot
  rw [← layoutOf_allAttributes typed, List.getElem?_map, Option.map_eq_some_iff] at there
  obtain ⟨b, hb, same⟩ := there
  have : b = a := List.inj_on_of_nodup_map (layoutOf_names_nodup typed c) (List.mem_of_getElem? hb)
    ha (congrArg Prod.fst same)
  rw [hb, this]

/-- Stores of the attributes of a layout that have a first value, in order and each to its own
place, cover it. -/
theorem CoversSlots.of_placed {layout : List Attribute} {stores : List FirstStore}
    (distinct : layout.Nodup) (all : stores.map (·.field) = layout.filter (·.Starts))
    (placed : ∀ x ∈ stores, layout[x.slot]? = some x.field) : CoversSlots layout stores where
  placed x hx := by
    have kept : x.field ∈ layout.filter (·.Starts) := all ▸ List.mem_map_of_mem hx
    exact ⟨placed x hx, of_decide_eq_true (List.mem_filter.mp kept).2⟩
  ordered := by
    have places : layout.Pairwise fun a b =>
        ∀ i j : Nat, layout[i]? = some a → layout[j]? = some b → i < j := by
      refine List.pairwise_iff_getElem.mpr fun m n hm hn less i j hi hj => ?_
      have first : m = i :=
        (List.getElem?_inj hm distinct).mp (by rw [hi, List.getElem?_eq_getElem])
      have second : n = j :=
        (List.getElem?_inj hn distinct).mp (by rw [hj, List.getElem?_eq_getElem])
      omega
    have kept := places.filter (p := (·.Starts))
    rw [← all, List.pairwise_map] at kept
    refine List.pairwise_map.mpr (kept.imp_of_mem fun hx hy before => ?_)
    exact before _ _ (placed _ hx) (placed _ hy)
  covered i a there starts := by
    have kept : a ∈ stores.map (·.field) :=
      all ▸ List.mem_filter.mpr ⟨List.mem_of_getElem? there, decide_eq_true starts⟩
    obtain ⟨x, hx, rfl⟩ := List.mem_map.mp kept
    have inside := (List.getElem?_eq_some_iff.mp there).1
    exact ⟨x, hx, ((List.getElem?_inj inside distinct).mp (there.trans (placed x hx).symm)).symm⟩

end Layout

section Chain

variable {files : SourceFiles} {classes : List ClassDecl} {t : ClassTable}

/-- A constructor that is generated calls that of its parent and stores first values. -/
theorem Accepted.construction (h : Accepted files classes t) {c : ClassDecl} (hc : c ∈ classes)
    {f : Bril.Function} (made : ((c.lowerEnv t).constructor c).result = .ok f) :
    ∃ k : Construction, k.owner = c ∧ k.function = f ∧ k.Stores t ∧
      ∀ x ∈ k.stores, ∃ type, t.slot? c.className x.field.name.text = some (x.slot, type) := by
  cases Member.makes_of_function (t := t) (e := .default) (b := .constructor c) made with
  | @constructor _ entry call s code u found called set =>
    obtain ⟨xs, stores, rfl, slots⟩ := FirstStores.of_run set
    have leading : c.leading = (call, s) := by
      unfold LowerEnv.parentCall at called
      rw [h.outlines.parent_of_get? hc found] at called
      unfold ClassDecl.leading
      split
      · rename_i builtin
        simp only [builtin, if_true] at called
        cases called
        rfl
      · rename_i user
        simp only [user] at called
        cases called
        rfl
    refine ⟨⟨c, xs⟩, rfl, by rw [Construction.function, leading], ⟨u, ?_⟩, slots⟩
    rw [leading]
    exact stores

/-- How constructors set up an object of a class: those of the class and of its ancestors run, as
they are generated, and store the first values of the attributes to their places in the layout. -/
structure ConstructorsOf (t : ClassTable) (classes : List ClassDecl) (c : ClassName)
    (ks : List Construction) : Prop where
  chain : ConstructedBy t c ks
  lineage : ks.map (·.owner.className) = ((t.lineage c).filter (!·.isBuiltin)).reverse
  generated : ∀ k ∈ ks, k.owner ∈ classes ∧
    ((k.owner.lowerEnv t).constructor k.owner).result = .ok k.function
  fields : (ks.flatMap (·.stores)).map (·.field) = (layoutOf t classes c).filter (·.Starts)
  placed : ∀ x ∈ ks.flatMap (·.stores), (layoutOf t classes c)[x.slot]? = some x.field

theorem ConstructorsOf.covers {c : ClassName} {ks : List Construction}
    (h : ConstructorsOf t classes c ks) (typed : typecheck classes = .ok t) :
    CoversSlots (layoutOf t classes c) (ks.flatMap (·.stores)) :=
  .of_placed (.of_map _ (layoutOf_names_nodup typed c)) h.fields h.placed

theorem Accepted.builtin_above (h : Accepted files classes t) {p : ClassName}
    (builtin : p.isBuiltin = true) :
    (t.lineage p).filter (!·.isBuiltin) = [] ∧ layoutOf t classes p = [] := by
  have above : ∀ d ∈ t.lineage p, d.isBuiltin = true := by
    intro d hd
    by_contra user
    have := h.outlines.notBuiltin_of_mem_lineage (Bool.eq_false_iff.mpr user) hd
    rw [builtin] at this
    cases this
  refine ⟨List.filter_eq_nil_iff.mpr fun d hd => by simp [above d hd], ?_⟩
  refine List.flatMap_eq_nil_iff.mpr fun d hd => ?_
  have undeclared : classes.find? (·.className = d) = none := by
    refine List.find?_eq_none.mpr fun c hc same => ?_
    have notBuiltin := (h.admits hc).notBuiltin
    rw [of_decide_eq_true same, above d (List.mem_reverse.mp hd)] at notBuiltin
    cases notBuiltin
  rw [attributesOf, undeclared]
  rfl

/-- What a constructor stores goes to the last slots of its class. -/
theorem Accepted.stores_placed (h : Accepted files classes t) {k : Construction}
    (hk : k.owner ∈ classes) (stores : k.Stores t)
    (slots : ∀ x ∈ k.stores, ∃ type,
      t.slot? k.owner.className x.field.name.text = some (x.slot, type)) :
    k.stores.map (·.field) = k.owner.attributes.filter (·.Starts) ∧
      ∀ x ∈ k.stores, (layoutOf t classes k.owner.className)[x.slot]? = some x.field := by
  obtain ⟨u, run⟩ := stores
  have fields := run.attributes (h.admits hk).notBuiltin
  refine ⟨fields, fun x hx => ?_⟩
  obtain ⟨type, slot⟩ := slots x hx
  have kept : x.field ∈ k.owner.attributes.filter (·.Starts) := fields ▸ List.mem_map_of_mem hx
  refine layoutOf_slot? h.typed ?_ slot
  rw [layoutOf_eq h.outlines, attributesOf_of_mem h.outlines hk]
  exact List.mem_append_right _ (List.mem_filter.mp kept).1

/-- An object begins with the slots of its parent, so what the parent's constructors store stays in
place when the constructor of the class runs behind them. -/
theorem Accepted.exists_constructors (h : Accepted files classes t) {c : ClassDecl}
    (hc : c ∈ classes) (made : ∀ d ∈ classes, d.className ∈ t.lineage c.className →
      ∃ f, ((d.lowerEnv t).constructor d).result = .ok f) :
    ∃ ks, ConstructorsOf t classes c.className ks := by
  have outlines := h.outlines
  -- On the number of classes on the way up, for the parent need not stand before its children.
  induction hn : (t.lineage c.className).length using Nat.strong_induction_on generalizing c with
  | _ n ih =>
    have parent := outlines.parent?_of_mem hc
    have lineage := outlines.lineage_eq c.className
    have layout := layoutOf_eq outlines c.className
    rw [parent, Option.elim_some] at lineage layout
    rw [attributesOf_of_mem outlines hc] at layout
    obtain ⟨f, hf⟩ := made c hc (lineage ▸ List.mem_cons_self)
    obtain ⟨k, rfl, rfl, stores, slots⟩ := h.construction hc hf
    obtain ⟨own, placed⟩ := h.stores_placed hc stores slots
    have user : (t.lineage k.owner.className).filter (!·.isBuiltin) = k.owner.className ::
        (t.lineage k.owner.parentName).filter (!·.isBuiltin) := by
      rw [lineage, List.filter_cons_of_pos (by simp [(h.admits hc).notBuiltin])]
    cases builtin : k.owner.parentName.isBuiltin with
    | true =>
      obtain ⟨noClasses, noFields⟩ := h.builtin_above builtin
      exact ⟨[k], .root builtin stores, by simp [user, noClasses],
        by simpa using ⟨hc, hf⟩, by simp [own, layout, noFields], by simpa using placed⟩
    | false =>
      obtain ⟨p, hp, same⟩ :=
        (outlines.contains_iff_mem builtin).mp (outlines.contains_parent parent)
      rw [← same] at lineage layout user
      have shorter : (t.lineage p.className).length < n := by
        rw [← hn, lineage]
        exact Nat.lt_succ_self _
      obtain ⟨ks, above⟩ := ih _ shorter hp
        (fun d hd above => made d hd (lineage ▸ List.mem_cons_of_mem _ above)) rfl
      refine ⟨ks ++ [k], .child builtin stores (same ▸ above.chain), ?_, ?_, ?_, ?_⟩
      · simp [above.lineage, user]
      · exact List.forall_mem_append.mpr ⟨above.generated, by simpa using ⟨hc, hf⟩⟩
      · simp [above.fields, own, layout]
      · rw [List.flatMap_append, List.flatMap_singleton]
        refine List.forall_mem_append.mpr ⟨fun x hx => ?_, placed⟩
        exact Bril.getElem?_of_prefix (layout ▸ List.prefix_append _ _) (above.placed x hx)

/-- The constructors of a class and its ancestors together cover the layout of its objects with
first stores. In a program they are functions, and each is found by its name unless the function of
a method stands in front and is called like it. -/
theorem constructors_cover (h : Accepted files classes t) {c : ClassDecl} (hc : c ∈ classes)
    (made : ∀ d ∈ classes, d.className ∈ t.lineage c.className →
      ∃ f, ((d.lowerEnv t).constructor d).result = .ok f) :
    (layoutOf t classes c.className).map (fun a => (a.name.text, a.type.className)) =
        t.allAttributes c.className ∧
      ∃ ks, ConstructorsOf t classes c.className ks ∧
        CoversSlots (layoutOf t classes c.className) (ks.flatMap (·.stores)) ∧
        ∀ e p, generate t e classes = .ok p → ∀ k ∈ ks, k.function ∈ p.functions ∧
          (¬ k.owner.Shadowed t e classes → p.find? k.function.name = some k.function) ∧
          (k.owner.Shadowed t e classes → ∃ d ∈ classes, ∃ m ∈ d.methods, ∃ g,
            (Member.method d m).function t e = .ok g ∧ p.find? k.function.name = some g) := by
  refine ⟨layoutOf_allAttributes h.typed c.className, ?_⟩
  obtain ⟨ks, constructors⟩ := h.exists_constructors hc made
  refine ⟨ks, constructors, constructors.covers h.typed, fun e p program k hk => ?_⟩
  obtain ⟨known, generated⟩ := constructors.generated k hk
  obtain ⟨f, hf, same⟩ :=
    exists_function program (b := .constructor k.owner) (mem_membersOf.mpr ⟨known, trivial⟩)
  cases generated.symm.trans same
  exact ⟨hf, find?_constructorName h program known same⟩

end Chain

def initialized : SourceFiles := .ofLines [
  "class Main { main() : Int { 0 }; };",
  "class A { a : Int <- 1; m : Main; b : Bool; };",
  "class B inherits A { n : Main <- new Main; k : SELF_TYPE; };",
  "class C inherits B { c : Int; d : Int <- c <- a + 1; };"]

theorem initialized_computed : SourceFiles.CompiledInOrder initialized .default ∧
    ((SourceFiles.codeInOrder initialized .default).functions.map (·.name)).Nodup ∧
    ∃ c ∈ SourceFiles.classes initialized, c.className = .named (ascii "C") ∧
      ((layoutOf (SourceFiles.tableInOrder initialized) (SourceFiles.classes initialized)
        c.className).filter (·.Starts)).map (·.name.text) = [ascii "a", ascii "b", ascii "n",
          ascii "c", ascii "d"] := by
  decide +kernel

theorem constructors_cover_initialized :
    ∃ c ∈ SourceFiles.classes initialized, c.className = .named (ascii "C") ∧
      ∃ ks, ConstructorsOf (SourceFiles.tableInOrder initialized) (SourceFiles.classes initialized)
          c.className ks ∧
        (ks.flatMap (·.stores)).map (·.field.name.text) = [ascii "a", ascii "b", ascii "n",
          ascii "c", ascii "d"] ∧
        ∀ k ∈ ks, (SourceFiles.codeInOrder initialized .default).find? k.function.name =
          some k.function := by
  obtain ⟨compiled, distinct, c, hc, name, fields⟩ := initialized_computed
  obtain ⟨accepted, generated⟩ := SourceFiles.compiled_inOrder compiled
  have calm := (nodup_names_iff accepted generated).mp distinct
  have made : ∀ d ∈ SourceFiles.classes initialized,
      d.className ∈ (SourceFiles.tableInOrder initialized).lineage c.className →
      ∃ f, ((d.lowerEnv (SourceFiles.tableInOrder initialized)).constructor d).result = .ok f := by
    intro d hd _
    obtain ⟨f, _, made⟩ :=
      exists_function generated (b := .constructor d) (mem_membersOf.mpr ⟨hd, trivial⟩)
    exact ⟨f, made⟩
  obtain ⟨_, ks, constructors, _, functions⟩ := constructors_cover accepted hc made
  refine ⟨c, hc, name, ks, constructors, ?_, fun k hk =>
    (functions _ _ generated k hk).2.1 fun shadowed => calm (.of_shadowed shadowed)⟩
  have names := congrArg (List.map fun a : Attribute => a.name.text) constructors.fields
  rw [List.map_map] at names
  exact names.trans fields

/-- A program with a method that is called like the constructor of a class, of which another class
inherits an attribute. -/
def shadowed : SourceFiles := .ofLines [
  "class A \x7b b__constructor() : Int \x7b 7 \x7d; \x7d;",
  "class A__b \x7b x : Int <- 5; \x7d;",
  "class Main \x7b c : C <- new C; main() : Object \x7b 0 \x7d; \x7d;",
  "class C inherits A__b \x7b y : Int <- 6; \x7d;"]

theorem shadowed_computed : SourceFiles.CompiledInOrder shadowed .default ∧
    ∃ c ∈ SourceFiles.classes shadowed, c.className = .named (ascii "C") ∧
      ∃ a ∈ (layoutOf (SourceFiles.tableInOrder shadowed) (SourceFiles.classes shadowed)
        c.className)[0]?, a.Starts := by
  decide +kernel

theorem shadowed_run :
    ∃ f ∈ (SourceFiles.codeInOrder shadowed .default).find?
        (ClassName.named (ascii "C")).constructorName,
      ∃ x ∈ (⟨[some [none, none]], .start f [.pointer 0 0], []⟩ : Bril.State).finish
        (SourceFiles.codeInOrder shadowed .default) .exact 40,
        x.2.heap = [some [none, some (.literal (.int 6))]] := by
  decide +kernel

/-- The constructor of a class leaves a slot of a new object empty whose attribute has an
initializer. -/
theorem shadowed_refutes :
    Accepted shadowed (SourceFiles.classes shadowed) (SourceFiles.tableInOrder shadowed) ∧
    generate (SourceFiles.tableInOrder shadowed) .default (SourceFiles.classes shadowed) =
      .ok (SourceFiles.codeInOrder shadowed .default) ∧
    ∃ c ∈ SourceFiles.classes shadowed, c.className = .named (ascii "C") ∧
      (∃ a, (layoutOf (SourceFiles.tableInOrder shadowed) (SourceFiles.classes shadowed)
        c.className)[0]? = some a ∧ a.Starts) ∧
      ∃ f, (SourceFiles.codeInOrder shadowed .default).find? c.className.constructorName = some f ∧
        ∃ passed s, Bril.Run (SourceFiles.codeInOrder shadowed .default) .exact
            ⟨[some [none, none]], .start f [.pointer 0 0], []⟩ passed s ∧
          s.step (SourceFiles.codeInOrder shadowed .default) .exact = .ok none ∧
          s.heap = [some [none, some (.literal (.int 6))]] := by
  obtain ⟨compiled, c, hc, name, a, first, starts⟩ := shadowed_computed
  obtain ⟨accepted, made⟩ := SourceFiles.compiled_inOrder compiled
  obtain ⟨f, found, ⟨passed, s⟩, finished, heap⟩ := shadowed_run
  obtain ⟨run, done⟩ := Bril.Run.of_finish finished
  exact ⟨accepted, made, c, hc, name, ⟨a, first, starts⟩, f, name ▸ found, passed, s, run, done,
    heap⟩

end Cool
