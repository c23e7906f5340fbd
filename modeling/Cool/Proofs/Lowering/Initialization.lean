import Cool.Proofs.Bril.Initialization
import Cool.Proofs.Lowering.Constructors
import Cool.Proofs.Lowering.ControlFlow
import Cool.Proofs.Lowering.Laid
import Cool.Proofs.Lowering.Unboxed

/-!
Reading attributes while an object is constructed. The constructors store first values in the order
of the slots, those of integers and truth values without an initializer among the rest. An
initializer that keeps to the slots before its own, and does not take the object itself, reads none
of these too early. Others may.
-/
namespace Cool

open LowerEnv
open Bril (Instr Share Shares Discreet Contained Fills SetsUp labels)
open FunctionState (tempName)

section Discretion

/-- The name whose value an expression takes by itself: the one that it reads, or that of the object
at hand, if it calls a method of it. -/
def Expr.readName? : Expr → Option Bytes
  | .name n => some n.text
  | .selfCall .. => some (ascii "self")
  | _ => none

/-- Whether an expression does not take the object at hand, and no attribute but from slots that it
may load from. -/
def Expr.Discreet (env : LowerEnv) (may : Nat → Prop) (e : Expr) : Prop :=
  ∀ x ∈ e.subterms, ∀ n ∈ x.readName?,
    n ≠ ascii "self" ∧ ∀ slot ∈ env.table.slot? env.self n, may slot.1

instance (env : LowerEnv) (may : Nat → Prop) [DecidablePred may] (e : Expr) :
    Decidable (e.Discreet env may) :=
  inferInstanceAs (Decidable (∀ x ∈ e.subterms, ∀ n ∈ x.readName?,
    n ≠ ascii "self" ∧ ∀ slot ∈ env.table.slot? env.self n, may slot.1))

abbrev shares : Meaning Share := ⟨.object, fun _ => .nothing⟩

variable {env : LowerEnv} {may : Nat → Prop} {s t u : FunctionState} {e p : Expr} {x : Lowered}
  {m : Shares}

theorem Expr.Discreet.part (h : e.Discreet env may) (hp : p ∈ e.parts) : p.Discreet env may :=
  fun x hx => h x (mem_subterms.mpr (.inr ⟨p, hp, hx⟩))

theorem Expr.Discreet.root (h : e.Discreet env may) : ∀ n ∈ e.readName?,
    n ≠ ascii "self" ∧ ∀ slot ∈ env.table.slot? env.self n, may slot.1 :=
  h e e.mem_subterms_self

theorem discreet_condCode {id : Nat} {x y z : Lowered} (hx : Discreet may m x.code)
    (hy : Discreet may m y.code) (hz : Discreet may m z.code) (yes : m y.dest = .nothing)
    (no : m z.dest = .nothing) (dest : m (tempName (id + 1)) = .nothing) :
    Discreet may m (condCode id x y z) := by
  have copy {reg : String} {ty : Bril.Ty} (h : m reg = .nothing) :
      (Instr.compute .id (tempName (id + 1)) ty [reg]).Discreet may m :=
    .operation nofun nofun (by simpa using h) dest
  simp only [condCode, Bril.discreet_append, Bril.discreet_cons, Bril.discreet_nil, and_true]
  exact ⟨⟨⟨⟨⟨⟨⟨⟨hx, .br⟩, .label⟩, hy⟩, copy yes, .jmp⟩, .label⟩, hz⟩, copy no, .jmp⟩, .label⟩

theorem discreet_loopCode {id : Nat} {x y : Lowered} (hx : Discreet may m x.code)
    (hy : Discreet may m y.code) : Discreet may m (loopCode id x y).code := by
  simp only [loopCode, Bril.discreet_append, Bril.discreet_cons, Bril.discreet_nil, and_true]
  exact ⟨⟨⟨⟨.label, hx⟩, .br, .label⟩, hy⟩, .jmp, .label⟩

theorem discreet_objectCode {id : Nat} {c : ClassName} (size : m (tempName id) = .nothing)
    (dest : m (tempName (id + 1)) = .nothing) : Discreet may m (env.objectCode id c) := by
  refine Bril.discreet_append.mpr ⟨?_, ?_⟩
  · rw [Bril.discreet_cons, Bril.discreet_cons]
    exact ⟨.literal size, .operation nofun nofun (by simpa using size) dest, Bril.discreet_nil⟩
  · split
    · exact Bril.discreet_nil
    · exact Bril.discreet_cons.mpr ⟨.call (by simpa using dest) dest, Bril.discreet_nil⟩

theorem discreet_defaultCode {dest : String} {c : ClassName} (h : m dest = .nothing) :
    Discreet may m (defaultCode dest c) := by
  unfold defaultCode
  cases c.default? with
  | none => exact Bril.discreet_nil
  | some v => exact Bril.discreet_cons.mpr ⟨.literal h, Bril.discreet_nil⟩

theorem address_discreet (may : Nat → Prop) (s : FunctionState) (slot : Nat) :
    Settles shares s (s.skip 2) fun m => Discreet may m (addressCode s.next slot) ∧
      m (tempName (s.next + 1)) = .address slot := by
  refine (Settles.temp₂ s (.offset slot) (.address slot)).imp ?_
  rintro m here ⟨offset, address⟩
  refine ⟨?_, address⟩
  simp only [addressCode, Bril.discreet_cons, Bril.discreet_nil, and_true]
  exact ⟨.offset offset, .address here.self offset address⟩

theorem literal_discreet {v : Bril.Literal} : Settles shares s (s.skip 1) fun m =>
    Discreet may m [.literal (tempName s.next) v] ∧ m (tempName s.next) = .nothing :=
  (Settles.temp s .nothing).imp fun _ _ dest =>
    ⟨Bril.discreet_cons.mpr ⟨.literal dest, Bril.discreet_nil⟩, dest⟩

/-- A call of a method of another object. -/
theorem called_discreet {owner : ClassName} {method : Bytes} {result : ClassName} {r : Lowered}
    {xs : List Lowered}
    (receiver : Settles shares s t fun m => Discreet may m r.code ∧ m r.dest = .nothing)
    (args : Settles shares t u fun m => Discreet may m (xs.flatMap (·.code)) ∧
      ∀ x ∈ xs, m x.dest = .nothing) :
    Settles shares s (u.skip 1) fun m =>
      Discreet may m (called u.next owner method result (r :: xs)).code ∧
        m (called u.next owner method result (r :: xs)).dest = .nothing := by
  refine ((receiver.bind args).bind (.temp u .nothing)).imp ?_
  rintro m _ ⟨⟨⟨code, first⟩, codes, others⟩, dest⟩
  refine ⟨Bril.discreet_append.mpr ⟨Bril.discreet_append.mpr ⟨code, codes⟩,
    Bril.discreet_cons.mpr ⟨.call ?_ dest, Bril.discreet_nil⟩⟩, dest⟩
  simpa [first] using others

/-- The code of a discreet expression keeps the object at hand where it is. -/
theorem Lowers.discreet (h : Lowers env s e x t) (wf : e.WellFormed) (he : e.Discreet env may) :
    Settles shares s t fun m => Discreet may m x.code ∧ m x.dest = .nothing := by
  induction h using Lowers.rec
    (motive_2 := fun s es xs t _ => (∀ e ∈ es, e.WellFormed) → (∀ e ∈ es, e.Discreet env may) →
      Settles shares s t fun m => Discreet may m (xs.flatMap (·.code)) ∧
        ∀ x ∈ xs, m x.dest = .nothing)
    (motive_3 := fun s bs code t _ => (∀ b ∈ bs, Binding.WellFormed b) →
      (∀ b ∈ bs, ∀ e ∈ b.init, e.Discreet env may) →
      Settles shares s t fun m => Discreet may m code) with
  | assignLocal _ found ih =>
    cases wf with | assign _ wf =>
    refine (ih wf (he.part (by simp [Expr.parts]))).imp ?_
    rintro m knows ⟨code, value⟩
    have dest : m _ = .nothing := knows.locals found
    refine ⟨Bril.discreet_append.mpr ⟨code, Bril.discreet_cons.mpr
      ⟨.operation (by decide) (by decide) (by simpa using value) dest, Bril.discreet_nil⟩⟩, dest⟩
  | @assignAttribute _ t _ _ _ _ slot _ _ _ _ ih =>
    cases wf with | assign _ wf =>
    refine ((ih wf (he.part (by simp [Expr.parts]))).bind (address_discreet may t slot)).imp ?_
    rintro m _ ⟨⟨code, value⟩, address, target⟩
    rw [Bril.discreet_append, Bril.discreet_append, Bril.discreet_cons]
    exact ⟨⟨⟨code, address⟩, .store target value, Bril.discreet_nil⟩, value⟩
  | selfCall =>
    -- The method would get the object at hand.
    exact absurd rfl (he.root _ rfl).1
  | call _ _ _ _ ihr iha | staticCall _ _ _ _ ihr iha =>
    cases wf
    rename_i wfr wfa
    exact called_discreet (ihr wfr (he.part (by simp [Expr.parts])))
      (iha wfa fun a ha => he.part (by simp [Expr.parts, ha]))
  | @cond _ _ _ w _ _ _ _ _ _ _ _ hy hn iht ihy ihn =>
    cases wf with | cond wft wfy wfn =>
    have arms := ((ihy wfy (he.part (by simp [Expr.parts]))).branch (hy.keeps wfy)).bind
      ((ihn wfn (he.part (by simp [Expr.parts]))).branch (hn.keeps wfn))
    refine (((iht wft (he.part (by simp [Expr.parts]))).bind arms).bind
      (.temp₂ w.leaveBranch .nothing .nothing)).imp ?_
    rintro m _ ⟨⟨⟨test, _⟩, ⟨yes, onYes⟩, no, onNo⟩, _, dest⟩
    exact ⟨discreet_condCode test yes no onYes onNo dest, dest⟩
  | @loop s _ _ _ _ _ _ _ ht hb iht ihb =>
    cases wf with | loop wft wfb =>
    have test := ((iht wft (he.part (by simp [Expr.parts]))).branch (ht.keeps wft)).after
      (.skip s 1)
    refine (test.bind ((ihb wfb (he.part (by simp [Expr.parts]))).branch (hb.keeps wfb))).imp ?_
    rintro m _ ⟨⟨test, dest⟩, body, _⟩
    exact ⟨discreet_loopCode test body, dest⟩
  | @block _ _ body _ xs hxs ih =>
    cases wf with | block ne wf =>
    refine (ih wf fun a ha => he.part (by simpa [Expr.parts] using ha)).scope.imp ?_
    rintro m _ ⟨codes, dests⟩
    refine ⟨codes, ?_⟩
    have ne : xs ≠ [] := fun none => ne (List.length_eq_zero_iff.mp (by
      rw [hxs.length_eq, none, List.length_nil]))
    unfold lastOf
    rw [List.getLast?_eq_some_getLast ne]
    exact dests (xs.getLast ne) (List.getLast_mem ne)
  | letIn _ _ ihb ih =>
    cases wf with | letIn names wfs wf =>
    refine ((ihb (fun b hb => ⟨names b hb, wfs b hb⟩) fun b hb a ha => he.part ?_).bind
      (ih wf (he.part (by simp [Expr.parts])))).scope.imp ?_
    · exact List.mem_append_left _ (List.mem_filterMap.mpr ⟨b, hb, ha⟩)
    · rintro m _ ⟨codes, code, dest⟩
      exact ⟨Bril.discreet_append.mpr ⟨codes, code⟩, dest⟩
  | newInt | newBool | int | bool => exact literal_discreet
  | @newObject s =>
    refine ((Settles.temp₂ s .nothing .nothing).before (.recordAlloc _ _)).imp ?_
    rintro m _ ⟨size, dest⟩
    exact ⟨discreet_objectCode size dest, dest⟩
  | @binary _ _ u op _ _ _ _ _ _ _ ihl ihr =>
    cases wf with | binary wfl wfr =>
    refine (((ihl wfl (he.part (by simp [Expr.parts]))).bind
      (ihr wfr (he.part (by simp [Expr.parts])))).bind (.temp u .nothing)).imp ?_
    rintro m _ ⟨⟨⟨left, first⟩, right, second⟩, dest⟩
    rw [Bril.discreet_append, Bril.discreet_append, Bril.discreet_cons]
    refine ⟨⟨⟨left, right⟩, .operation ?_ ?_ (by simp [first, second]) dest, Bril.discreet_nil⟩,
      dest⟩
    · cases op <;> decide
    · cases op <;> decide
  | @not _ t _ _ _ _ ih =>
    cases wf with | unary wf =>
    refine ((ih wf (he.part (by simp [Expr.parts]))).bind (.temp t .nothing)).imp ?_
    rintro m _ ⟨⟨code, operand⟩, dest⟩
    rw [Bril.discreet_append, Bril.discreet_cons]
    exact ⟨⟨code, .operation (by decide) (by decide) (by simpa using operand) dest,
      Bril.discreet_nil⟩, dest⟩
  | @complement _ t _ _ _ _ ih =>
    cases wf with | unary wf =>
    refine ((ih wf (he.part (by simp [Expr.parts]))).bind (.temp₂ t .nothing .nothing)).imp ?_
    rintro m _ ⟨⟨code, operand⟩, zero, dest⟩
    rw [Bril.discreet_append, Bril.discreet_cons, Bril.discreet_cons]
    exact ⟨⟨code, .literal zero, .operation (by decide) (by decide) (by simp [zero, operand]) dest,
      Bril.discreet_nil⟩, dest⟩
  | self isSelf => exact absurd (eq_of_beq isSelf) (he.root _ rfl).1
  | «local» _ found => exact .here (.refl _) fun m knows => ⟨Bril.discreet_nil, knows.locals found⟩
  | @«attribute» s _ slot _ _ _ found =>
    refine ((address_discreet may s slot).bind (.temp (s.skip 2) .nothing)).imp ?_
    rintro m _ ⟨⟨address, target⟩, dest⟩
    rw [Bril.discreet_append, Bril.discreet_cons]
    exact ⟨⟨address, .load target ((he.root _ rfl).2 _ found) dest, Bril.discreet_nil⟩, dest⟩
  | group _ ih =>
    cases wf with | group wf =>
    exact ih wf (he.part (by simp [Expr.parts]))
  | nil => exact .here (.refl _) fun m _ => ⟨Bril.discreet_nil, List.forall_mem_nil _⟩
  | cons _ _ ih ihs wf he =>
    rw [List.forall_mem_cons] at wf he
    refine ((ih wf.1 he.1).bind (ihs wf.2 he.2)).imp ?_
    rintro m _ ⟨⟨code, dest⟩, codes, dests⟩
    rw [List.flatMap_cons, Bril.discreet_append, List.forall_mem_cons]
    exact ⟨⟨code, codes⟩, dest, dests⟩
  | empty => exact .here (.refl _) fun m _ => Bril.discreet_nil
  | @init _ t _ _ _ _ _ _ _ _ _ _ ihv ih wf he =>
    rw [List.forall_mem_cons] at wf he
    refine ((ihv (wf.1.2 _ rfl) (he.1 _ rfl)).bind
      ((Settles.bound t wf.1.1 _).bind (ih wf.2 he.2))).imp ?_
    rintro m _ ⟨⟨code, value⟩, reg, rest⟩
    rw [Bril.discreet_append, Bril.discreet_append, Bril.discreet_cons]
    exact ⟨⟨code, .operation (by decide) (by decide) (by simpa using value) reg,
      Bril.discreet_nil⟩, rest⟩
  | @default s _ _ _ _ _ _ _ ih wf he =>
    rw [List.forall_mem_cons] at wf he
    refine ((Settles.bound s wf.1.1 _).bind (ih wf.2 he.2)).imp ?_
    rintro m _ ⟨reg, rest⟩
    exact Bril.discreet_append.mpr ⟨discreet_defaultCode reg, rest⟩

end Discretion

section Stores

variable {watched : Nat → Prop} {env : LowerEnv} {s t u : FunctionState} {as : List Attribute}
  {stores xs ys : List FirstStore} {x : FirstStore} {k : Shares}

/-- Whether no slot that is watched is left behind the one that a value is stored to. -/
def FirstStore.Late (watched : Nat → Prop) (x : FirstStore) : Prop := ∀ i, watched i → i < x.slot

structure FirstStore.Fits (watched : Nat → Prop) (k : Shares) (x : FirstStore) : Prop where
  discreet : Discreet (fun n => watched n → n < x.slot) k x.operands
  address : k x.address = .address x.slot
  value : k x.value = .nothing

/-- Whether the initializer of an attribute reads only from slots before that of the attribute, but
for those that are not watched. -/
def FirstStore.Reads (watched : Nat → Prop) (env : LowerEnv) (x : FirstStore) : Prop :=
  ∀ e ∈ x.field.init, e.Discreet env fun n => watched n → n < x.slot

/-- The code of a value and that of the address behind it. -/
theorem behind_settles {a : Attribute} {code : List Instr} {value : String} {slot : Nat}
    (h : Settles shares s t fun m => Discreet (fun n => watched n → n < slot) m code ∧
      m value = .nothing) :
    Settles shares s (t.skip 2) fun m => (FirstStore.behind a code value t slot).Fits watched m :=
  (h.bind (address_discreet _ t slot)).imp fun _ _ ⟨⟨code, value⟩, address, target⟩ =>
    ⟨Bril.discreet_append.mpr ⟨code, address⟩, target, value⟩

theorem FirstStores.settles (h : FirstStores env s as xs u)
    (wf : ∀ a ∈ as, Binding.WellFormed a)
    (reads : ∀ x ∈ xs, x.Late watched ∨ x.Reads watched env) :
    Settles shares s u fun m => ∀ x ∈ xs, x.Late watched ∨ x.Fits watched m := by
  induction h with
  | nil => exact .here (.refl _) fun _ _ => List.forall_mem_nil _
  | @init s t _ a e v slot _ _ init run _ ih =>
    rw [List.forall_mem_cons] at wf reads
    have wfe := wf.1.2 _ init
    have lowers := Lowers.of_run e run
    have here : Settles shares s (t.skip 2) fun m =>
        (FirstStore.behind a v.code v.dest t slot).Late watched ∨
          (FirstStore.behind a v.code v.dest t slot).Fits watched m := by
      rcases reads.1 with late | reads
      · -- All that is watched has been stored to, so registers may hold the object.
        exact .here ((lowers.keeps wfe).trans (.skip t 2)) fun _ _ => .inl late
      · exact (behind_settles (lowers.discreet wfe (reads e init))).imp fun _ _ => .inr
    exact (here.bind (ih wf.2 reads.2)).imp fun _ _ ⟨first, rest⟩ =>
      List.forall_mem_cons.mpr ⟨first, rest⟩
  | @default s _ a v slot _ _ _ _ _ ih =>
    rw [List.forall_mem_cons] at wf reads
    have here : Settles shares s ((s.skip 1).skip 2) fun m => (FirstStore.behind a
        [.literal (tempName s.next) v] (tempName s.next) (s.skip 1) slot).Fits watched m :=
      behind_settles literal_discreet
    exact (here.bind (ih wf.2 reads.2)).imp fun _ _ ⟨first, rest⟩ =>
      List.forall_mem_cons.mpr ⟨.inr first, rest⟩
  | @none s _ _ _ _ _ _ _ ih =>
    rw [List.forall_mem_cons] at wf
    exact (ih wf.2 reads).after (.skip s 1)

theorem FirstStores.contained (h : FirstStores env s as xs u) : ∀ x ∈ xs, Contained x.operands := by
  have address {code : List Instr} (h : Contained code) (a : Attribute) (value : String)
      (t : FunctionState) (slot : Nat) :
      Contained (FirstStore.behind a code value t slot).operands :=
    h.append (Laid.row rfl).contained
  induction h with
  | nil => exact List.forall_mem_nil _
  | init _ run _ ih =>
    obtain ⟨_, laid, -⟩ := (Lowers.of_run _ run).records
    exact List.forall_mem_cons.mpr ⟨address laid.contained _ _ _ _, ih⟩
  | default _ _ _ ih =>
    exact List.forall_mem_cons.mpr ⟨address (Laid.row rfl).contained _ _ _ _, ih⟩
  | none _ _ _ ih => exact ih

structure Gapless (watched : Nat → Prop) (stores : List FirstStore) : Prop where
  ordered : (stores.map (·.slot)).Pairwise (· < ·)
  covered : ∀ x ∈ stores, ∀ i, watched i → i < x.slot → ∃ y ∈ stores, y.slot = i

/-- What is left out before one of the first stores is not stored to later. -/
theorem Gapless.left (h : Gapless watched (xs ++ ys)) : Gapless watched xs := by
  have ordered := h.ordered
  rw [List.map_append, List.pairwise_append] at ordered
  refine ⟨ordered.1, fun x hx i hi before => ?_⟩
  obtain ⟨y, hy, rfl⟩ := h.covered x (List.mem_append_left _ hx) i hi before
  rcases List.mem_append.mp hy with hy | hy
  · exact ⟨y, hy, rfl⟩
  · have := ordered.2.2 _ (List.mem_map_of_mem hx) _ (List.mem_map_of_mem hy)
    omega

/-- Stores behind others fill the object on. -/
theorem Gapless.fills (h : Gapless watched (xs ++ ys)) (contained : ∀ y ∈ ys, Contained y.operands)
    (fits : ∀ y ∈ ys, y.Late watched ∨ y.Fits watched k) (reg : String) :
    Fills watched k (xs.map (·.slot)).reverse
      (ys.flatMap FirstStore.instrs ++ [.ret (some reg)]) ((xs ++ ys).map (·.slot)).reverse := by
  induction ys generalizing xs with
  | nil =>
    rw [List.append_nil]
    exact .ret
  | cons y ys ih =>
    rw [List.forall_mem_cons] at contained fits
    have ordered := h.ordered
    rw [List.map_append, List.pairwise_append] at ordered
    -- What is watched before the slot of `y` is not left to `ys`, which goes up from there.
    have before : ∀ i, watched i → i < y.slot → i ∈ (xs.map (·.slot)).reverse := by
      intro i hi less
      obtain ⟨z, hz, rfl⟩ := h.covered y (by simp) i hi less
      rcases List.mem_append.mp hz with hz | hz
      · exact List.mem_reverse.mpr (List.mem_map_of_mem hz)
      · rcases List.mem_cons.mp hz with rfl | hz
        · omega
        · have later : y.slot < z.slot :=
            (List.pairwise_cons.mp ordered.2.1).1 _ (List.mem_map_of_mem hz)
          omega
    rcases fits.1 with late | fits'
    · exact .all fun i hi => before i hi (late i hi)
    · have rest : Gapless watched ((xs ++ [y]) ++ ys) := by simpa using h
      have more := ih rest contained.2 fits.2
      rw [List.flatMap_cons, FirstStore.instrs, List.append_assoc, List.append_assoc]
      refine .row contained.1 (fits'.discreet.mono fun n hn hw => before n hw (hn hw))
        fits'.address fits'.value ?_
      simpa using more

end Stores

section Chain

variable {watched : Nat → Prop} {t : ClassTable} {c : ClassName} {p : Bril.Program}

structure Construction.Ready (watched : Nat → Prop) (t : ClassTable) (p : Bril.Program)
    (k : Construction) : Prop where
  found : p.find? k.function.name = some k.function
  distinct : (labels k.function.instrs).Nodup
  wellFormed : ∀ a ∈ k.owner.attributes, Binding.WellFormed a
  reads : ∀ x ∈ k.stores, x.Late watched ∨ x.Reads watched (k.owner.lowerEnv t)

theorem Construction.instrs_root {k : Construction} (h : k.owner.parentName.isBuiltin = true) :
    k.function.instrs = k.stores.flatMap FirstStore.instrs ++ [.ret (some selfReg)] := by
  simp [function, ClassDecl.leading, h]

theorem Construction.instrs_child {k : Construction} (h : k.owner.parentName.isBuiltin = false) :
    k.function.instrs = .call (tempName 0) .object k.owner.parentName.constructorName [selfReg] ::
      (k.stores.flatMap FirstStore.instrs ++ [.ret (some selfReg)]) := by
  simp [function, ClassDecl.leading, h]

theorem Construction.Ready.shares {k : Construction} (h : k.Ready watched t p)
    (stores : k.Stores t) : ∃ m : Shares, m selfReg = .object ∧
      (k.owner.parentName.isBuiltin = false → m (tempName 0) = .anything) ∧
      (∀ x ∈ k.stores, Contained x.operands) ∧
      ∀ x ∈ k.stores, x.Late watched ∨ x.Fits watched m := by
  obtain ⟨u, run⟩ := stores
  have contained := run.contained
  have settles := run.settles h.wellFormed h.reads
  unfold ClassDecl.leading at settles
  split at settles
  · rename_i builtin
    obtain ⟨m, fits, knows⟩ := settles.solve
    exact ⟨m, knows.self, fun user => absurd (builtin.symm.trans user) nofun, contained, fits⟩
  · obtain ⟨m, ⟨result, fits⟩, knows⟩ := ((Settles.temp .initial .anything).bind settles).solve
    exact ⟨m, knows.self, fun _ => result, contained, fits⟩

theorem ConstructedBy.stores {ks : List Construction} (h : ConstructedBy t c ks) :
    ∀ k ∈ ks, k.Stores t := by
  induction h with
  | root _ stores => exact fun _ hk => List.mem_singleton.mp hk ▸ stores
  | child _ stores _ ih =>
    exact List.forall_mem_append.mpr ⟨ih, fun _ hk => List.mem_singleton.mp hk ▸ stores⟩

/-- The constructors of a class set up its objects, one behind the other. -/
theorem ConstructedBy.setsUp {ks : List Construction} (h : ConstructedBy t c ks)
    (ready : ∀ k ∈ ks, k.Ready watched t p) (gapless : Gapless watched (ks.flatMap (·.stores))) :
    ∃ f, p.find? c.constructorName = some f ∧
      SetsUp p watched f ((ks.flatMap (·.stores)).map (·.slot)).reverse := by
  induction h with
  | @root k builtin stores =>
    have ready := ready k (List.mem_singleton_self k)
    obtain ⟨m, self, _, contained, fits⟩ := ready.shares stores
    rw [List.flatMap_singleton] at gapless ⊢
    have whole : Gapless watched ([] ++ k.stores) := gapless
    have fills := whole.fills contained fits selfReg
    exact ⟨k.function, ready.found, .alone rfl ready.distinct self
      (Construction.instrs_root builtin ▸ fills)⟩
  | @child ks k user stores _ ih =>
    rw [List.forall_mem_append] at ready
    have last := ready.2 k (List.mem_singleton_self k)
    obtain ⟨m, self, result, contained, fits⟩ := last.shares stores
    rw [List.flatMap_append, List.flatMap_singleton] at gapless ⊢
    obtain ⟨g, found, before⟩ := ih ready.1 gapless.left
    exact ⟨k.function, last.found, .behind rfl last.distinct self (result user)
      (Construction.instrs_child user) found before (gapless.fills contained fits selfReg)⟩

end Chain

section Programs

variable {files : SourceFiles} {classes : List ClassDecl} {t : ClassTable} {e : Entry}
  {p : Bril.Program} {c : ClassName}

def ClassTable.scalarSlots (t : ClassTable) (c : ClassName) : List Nat :=
  (List.range (t.allAttributes c).length).filter fun i =>
    ((t.allAttributes c)[i]?).any fun a => a.2.Scalar

/-- Whether the initializers of a class and its ancestors that are not behind all attributes with
integers or truth values do not take the object at hand, and no such attribute that is not before
their own. -/
def InOrder (t : ClassTable) (classes : List ClassDecl) (c : ClassName) : Prop :=
  ∀ d ∈ classes, d.className ∈ t.lineage c → ∀ a ∈ d.attributes, ∀ e ∈ a.init,
    ∀ slot ∈ t.slot? c a.name.text, (∀ i ∈ t.scalarSlots c, i < slot.1) ∨
      e.Discreet (d.lowerEnv t) fun i => i ∈ t.scalarSlots c → i < slot.1

instance (t : ClassTable) (classes : List ClassDecl) (c : ClassName) :
    Decidable (InOrder t classes c) :=
  inferInstanceAs (Decidable (∀ d ∈ classes, d.className ∈ t.lineage c → ∀ a ∈ d.attributes,
    ∀ e ∈ a.init, ∀ slot ∈ t.slot? c a.name.text, (∀ i ∈ t.scalarSlots c, i < slot.1) ∨
      e.Discreet (d.lowerEnv t) fun i => i ∈ t.scalarSlots c → i < slot.1))

theorem mem_scalarSlots {i : Nat} : i ∈ t.scalarSlots c ↔
    ∃ name type, (t.allAttributes c)[i]? = some (name, type) ∧ type.Scalar := by
  simp only [ClassTable.scalarSlots, List.mem_filter, List.mem_range, Option.any_eq_true,
    decide_eq_true_eq, Prod.exists]
  refine ⟨And.right, fun h => ⟨?_, h⟩⟩
  obtain ⟨_, _, there, _⟩ := h
  exact (List.getElem?_eq_some_iff.mp there).1

/-- Stores that cover the slots of a class leave out none with an integer or a truth value. -/
theorem CoversSlots.gapless (typed : typecheck classes = .ok t) {stores : List FirstStore}
    (h : CoversSlots (layoutOf t classes c) stores) : Gapless (· ∈ t.scalarSlots c) stores where
  ordered := h.ordered
  covered _ _ i hi _ := by
    obtain ⟨name, type, there, scalar⟩ := mem_scalarSlots.mp hi
    rw [← layoutOf_allAttributes typed, List.getElem?_map, Option.map_eq_some_iff] at there
    obtain ⟨a, ha, same⟩ := there
    cases same
    exact h.covered i a ha (.inr scalar)

/-- Where initializers come in order, each of the constructors can do its part. -/
theorem ConstructorsOf.ready (h : Accepted files classes t) (made : generate t e classes = .ok p)
    (calm : ¬ Clash e classes) {ks : List Construction}
    (constructors : ConstructorsOf t classes c ks) (inOrder : InOrder t classes c) :
    ∀ k ∈ ks, k.Ready (· ∈ t.scalarSlots c) t p := by
  intro k hk
  obtain ⟨known, generated⟩ := constructors.generated k hk
  obtain ⟨f, hf, function⟩ :=
    exists_function made (b := .constructor k.owner) (mem_membersOf.mpr ⟨known, trivial⟩)
  cases generated.symm.trans function
  refine ⟨find?_of_nodup ((nodup_names_iff h made).mpr calm) hf, Member.function_labels function,
    fun a ha => (h.wellFormed known).attribute ha, fun x hx => ?_⟩
  have declared : x.field ∈ k.owner.attributes := by
    obtain ⟨u, run⟩ := constructors.chain.stores k hk
    have fields := run.attributes (h.admits known).notBuiltin
    exact (List.mem_filter.mp (fields ▸ List.mem_map_of_mem hx)).1
  have above : k.owner.className ∈ t.lineage c := by
    have mem := List.mem_map_of_mem (f := (·.owner.className)) hk
    rw [constructors.lineage, List.mem_reverse] at mem
    exact (List.mem_filter.mp mem).1
  have slot : t.slot? c x.field.name.text = some (x.slot, x.field.type.className) := by
    have placed := constructors.placed x (List.mem_flatMap.mpr ⟨k, hk, hx⟩)
    refine (ClassTable.slot?_iff ?_).mpr ?_
    · rw [← layoutOf_allAttributes h.typed, List.map_map]
      exact layoutOf_names_nodup h.typed c
    · rw [← layoutOf_allAttributes h.typed, List.getElem?_map, placed]
      rfl
  cases init : x.field.init with
  | none => exact .inr fun e he => absurd (init.symm.trans he) nofun
  | some e =>
    refine (inOrder k.owner known above x.field declared e init _ slot).imp_right ?_
    rintro discreet e' he
    cases init.symm.trans he
    exact discreet

/-- The constructor of a class whose initializers come in order stores to the slot of each integer
or truth value before anything loads from there. -/
theorem constructors_store_first (h : Accepted files classes t)
    (made : generate t e classes = .ok p) (calm : ¬ Clash e classes) {c : ClassDecl}
    (hc : c ∈ classes) (inOrder : InOrder t classes c.className) :
    ∃ f, p.find? c.className.constructorName = some f ∧
      f.StoresFirst p (· ∈ t.scalarSlots c.className) := by
  have generated (d : ClassDecl) (hd : d ∈ classes) :
      ∃ f, ((d.lowerEnv t).constructor d).result = .ok f := by
    obtain ⟨f, _, function⟩ :=
      exists_function made (b := .constructor d) (mem_membersOf.mpr ⟨hd, trivial⟩)
    exact ⟨f, function⟩
  obtain ⟨ks, constructors⟩ := h.exists_constructors hc fun d hd _ => generated d hd
  have gapless := (constructors.covers h.typed).gapless h.typed
  obtain ⟨f, found, setsUp⟩ :=
    constructors.chain.setsUp (constructors.ready h made calm inOrder) gapless
  exact ⟨f, found, setsUp.storesFirst⟩

end Programs

/-- A program whose initializers read attributes of the class and of ancestors that come before
their own, and at last call a method of the object. -/
def staged : SourceFiles := .ofLines [
  "class Main \x7b main() : Int \x7b (new B).sum() \x7d; \x7d;",
  "class A \x7b a : Int <- 1; b : Bool; m : Main <- new Main; c : Int <- a + 1; \x7d;",
  "class B inherits A \x7b",
  "  d : Int <- \x7b c <- a * c; if b then c else a fi; \x7d;",
  "  e : A <- let x : Int <- d in new A;",
  "  f : Int;",
  "  g : Main <- \x7b sum(); m; \x7d;",
  "  sum() : Int \x7b a + c + d + f \x7d;",
  "\x7d;"]

theorem staged_computed : SourceFiles.CompiledInOrder staged .default ∧
    ((SourceFiles.codeInOrder staged .default).functions.map (·.name)).Nodup ∧
    ∃ c ∈ SourceFiles.classes staged, c.className = .named (ascii "B") ∧
      InOrder (SourceFiles.tableInOrder staged) (SourceFiles.classes staged) c.className ∧
      (SourceFiles.tableInOrder staged).scalarSlots c.className = [0, 1, 3, 4, 6] := by
  decide +kernel

theorem constructors_store_first_staged :
    Accepted staged (SourceFiles.classes staged) (SourceFiles.tableInOrder staged) ∧
    generate (SourceFiles.tableInOrder staged) .default (SourceFiles.classes staged) =
      .ok (SourceFiles.codeInOrder staged .default) ∧
    ¬ Clash .default (SourceFiles.classes staged) ∧
    ∃ c ∈ SourceFiles.classes staged, c.className = .named (ascii "B") ∧
      InOrder (SourceFiles.tableInOrder staged) (SourceFiles.classes staged) c.className ∧
      (SourceFiles.tableInOrder staged).scalarSlots c.className = [0, 1, 3, 4, 6] ∧
      ∃ f, (SourceFiles.codeInOrder staged .default).find? c.className.constructorName = some f ∧
        f.StoresFirst (SourceFiles.codeInOrder staged .default)
          (· ∈ (SourceFiles.tableInOrder staged).scalarSlots c.className) := by
  obtain ⟨compiled, distinct, c, hc, name, inOrder, slots⟩ := staged_computed
  obtain ⟨accepted, made⟩ := SourceFiles.compiled_inOrder compiled
  have calm := (nodup_names_iff accepted made).mp distinct
  exact ⟨accepted, made, calm, c, hc, name, inOrder, slots,
    constructors_store_first accepted made calm hc inOrder⟩

/-- A program whose constructor reads an attribute that it stores the default to afterwards. -/
def hasty : SourceFiles := .ofLines [
  "class Main \x7b",
  "  x : Int <- y;",
  "  y : Int;",
  "  main() : Int \x7b x \x7d;",
  "\x7d;"]

theorem hasty_computed : SourceFiles.CompiledInOrder hasty .default ∧
    ∃ c ∈ SourceFiles.classes hasty, c.className = .named (ascii "Main") ∧
      1 ∈ (SourceFiles.tableInOrder hasty).scalarSlots c.className ∧
      ∃ f ∈ (SourceFiles.codeInOrder hasty .default).find? c.className.constructorName,
        f.params.map (·.name) = [selfReg] ∧ f.instrs = .literal (tempName 0) (.int 1) ::
          .compute .ptradd (tempName 1) .object [selfReg, tempName 0] ::
          .compute .load (tempName 2) .int [tempName 1] :: f.instrs.drop 3 := by
  decide +kernel

theorem hasty_refutes :
    Accepted hasty (SourceFiles.classes hasty) (SourceFiles.tableInOrder hasty) ∧
    generate (SourceFiles.tableInOrder hasty) .default (SourceFiles.classes hasty) =
      .ok (SourceFiles.codeInOrder hasty .default) ∧
    ∃ c ∈ SourceFiles.classes hasty, c.className = .named (ascii "Main") ∧
      ∃ f, (SourceFiles.codeInOrder hasty .default).find? c.className.constructorName = some f ∧
        ¬ f.StoresFirst (SourceFiles.codeInOrder hasty .default)
          (· ∈ (SourceFiles.tableInOrder hasty).scalarSlots c.className) := by
  obtain ⟨compiled, c, hc, name, slot, f, found, params, instrs⟩ := hasty_computed
  obtain ⟨accepted, made⟩ := SourceFiles.compiled_inOrder compiled
  exact ⟨accepted, made, c, hc, name, f, found,
    Bril.not_storesFirst (n := 1) slot params (by decide) instrs⟩

end Cool
