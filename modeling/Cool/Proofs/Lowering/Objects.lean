import Cool.Proofs.Bril.Passage
import Cool.Proofs.Lowering.Labels
import Cool.Proofs.Lowering.Writes

/-!
The registers of new objects. An object gets a register that has not been given out, no variable has
that register, and nothing writes it but the allocation and the call of a constructor on the object.
-/
namespace Cool

open Bril (Instr written written_append allocated allocated_append)
open FunctionState (tempName)
open LowerEnv

namespace FunctionState

def Reserved (s : FunctionState) (reg : String) : Prop :=
  s.Given reg ∧ ∀ x ∈ s.locals, x.2.reg ≠ reg

variable {s t : FunctionState} {reg : String}

theorem Sound.reserved_self (hs : s.Sound) : s.Reserved selfReg :=
  ⟨.inl hs.self, fun x hx => (hs.used x hx).2⟩

theorem Reserved.keeps (h : s.Reserved reg) (keeps : s.Keeps t) : t.Reserved reg :=
  ⟨keeps.given h.1, keeps.locals ▸ h.2⟩

theorem Reserved.pop (h : s.Reserved reg) : s.pop.Reserved reg :=
  ⟨h.1, fun x hx => h.2 x ((Scopes.flatten_pop_sublist s.scopes).subset hx)⟩

theorem Reserved.bind (h : s.Reserved reg) (hs : s.Sound) {name : Bytes} (hn : IsWord name)
    (type : ClassName) : (s.bind name type).2.Reserved reg ∧ reg ≠ (s.bind name type).1 := by
  have new := hs.bind_reg_not_given hn.dotFree type
  have given := (Extends.bind s hn type).given h.1
  have apart : reg ≠ (s.bind name type).1 := fun same => new (same ▸ h.1)
  obtain ⟨r, n, heq, -⟩ := s.bind_eq name type
  rw [heq] at given apart ⊢
  refine ⟨⟨given, fun x hx => ?_⟩, apart⟩
  have hx : x ∈ (s.scopes.bind name ⟨r, type⟩).frames.flatten := hx
  rw [Scopes.flatten_bind, List.mem_cons] at hx
  rcases hx with rfl | hx
  · exact apart.symm
  · exact h.2 x hx

theorem Sound.temp_reserved (hs : s.Sound) {i n : Nat} (hi : i < n) :
    (s.skip n).Reserved (tempName (s.next + i)) := by
  refine ⟨given_temp s hi, fun x hx same => ?_⟩
  exact hs.temp_not_given (Nat.le_add_right _ i) (same ▸ .inl (hs.used x hx).1)

end FunctionState

def Constructs (table : ClassTable) (reg : String) (i : Instr) : Prop :=
  ∃ c, c.isBuiltin = false ∧ table.contains c = true ∧
    i = .call reg .object c.constructorName [reg]

/-- Code between two states that keeps the registers of objects: it does not write those that were
reserved before, and each object that it allocates gets one that is new. -/
structure Allots (table : ClassTable) (s : FunctionState) (code : List Instr) (t : FunctionState) :
    Prop where
  sound : t.Sound
  given : ∀ r, s.Given r → t.Given r
  written : ∀ r ∈ written code, t.Given r
  reserved : ∀ r, s.Reserved r → t.Reserved r ∧ r ∉ Bril.written code
  objects : ∀ r ∈ allocated code, ¬ s.Given r ∧ t.Reserved r
  distinct : (allocated code).Nodup
  kept : ∀ r ∈ allocated code, ∀ i ∈ code, i.dest? = some r →
    i.allocates? = some r ∨ Constructs table r i

namespace Allots

variable {table : ClassTable} {s t u : FunctionState} {code a b : List Instr}

theorem mem_written {i : Instr} {r : String} (hi : i ∈ code) (hr : i.dest? = some r) :
    r ∈ Bril.written code :=
  List.mem_filterMap.mpr ⟨i, hi, hr⟩

theorem append (ha : Allots table s a t) (hb : Allots table t b u) :
    Allots table s (a ++ b) u where
  sound := hb.sound
  given r hr := hb.given r (ha.given r hr)
  written r hr := by
    rw [written_append] at hr
    exact (List.mem_append.mp hr).elim (fun hr => hb.given r (ha.written r hr)) (hb.written r)
  reserved r hr := by
    obtain ⟨reserved, first⟩ := ha.reserved r hr
    obtain ⟨reserved, second⟩ := hb.reserved r reserved
    rw [written_append, List.mem_append, not_or]
    exact ⟨reserved, first, second⟩
  objects r hr := by
    rw [allocated_append] at hr
    rcases List.mem_append.mp hr with hr | hr
    · exact ⟨(ha.objects r hr).1, (hb.reserved r (ha.objects r hr).2).1⟩
    · exact ⟨fun given => (hb.objects r hr).1 (ha.given r given), (hb.objects r hr).2⟩
  distinct := by
    rw [allocated_append]
    refine List.nodup_append.mpr ⟨ha.distinct, hb.distinct, ?_⟩
    rintro r hr _ hr' rfl
    exact (hb.objects r hr').1 (ha.objects r hr).2.1
  kept r hr i hi hd := by
    rw [allocated_append] at hr
    -- An object of one part is reserved in the other, or not yet given out.
    rcases List.mem_append.mp hr with hr | hr <;> rcases List.mem_append.mp hi with hi | hi
    · exact ha.kept r hr i hi hd
    · exact absurd (mem_written hi hd) (hb.reserved r (ha.objects r hr).2).2
    · exact absurd (ha.written r (mem_written hi hd)) (hb.objects r hr).1
    · exact hb.kept r hr i hi hd

theorem perm (h : Allots table s a t) (hp : b.Perm a) : Allots table s b t := by
  have writes : (Bril.written b).Perm (Bril.written a) := hp.filterMap _
  have allocates : (allocated b).Perm (allocated a) := hp.filterMap _
  exact {
    sound := h.sound
    given := h.given
    written := fun r hr => h.written r (writes.subset hr)
    reserved := fun r hr => (h.reserved r hr).imp_right fun apart m => apart (writes.subset m)
    objects := fun r hr => h.objects r (allocates.subset hr)
    distinct := allocates.nodup_iff.mpr h.distinct
    kept := fun r hr i hi => h.kept r (allocates.subset hr) i (hp.subset hi) }

theorem of_allocated_eq_nil (none : allocated code = []) (sound : t.Sound)
    (given : ∀ r, s.Given r → t.Given r) (writes : ∀ r ∈ Bril.written code, t.Given r)
    (reserved : ∀ r, s.Reserved r → t.Reserved r ∧ r ∉ Bril.written code) :
    Allots table s code t where
  sound := sound
  given := given
  written := writes
  reserved := reserved
  objects r hr := by
    rw [none] at hr
    cases hr
  distinct := none ▸ List.nodup_nil
  kept r hr := by
    rw [none] at hr
    cases hr

/-- Code that writes some of the next `n` temporaries. -/
theorem temps (hs : s.Sound) (n : Nat) (none : allocated code = [])
    (new : Bril.written code ⊆ (List.range n).map fun i => tempName (s.next + i)) :
    Allots table s code (s.skip n) := by
  refine of_allocated_eq_nil none (hs.skip n) (fun r hr => (FunctionState.Keeps.skip s n).given hr)
    (fun r hr => ?_) fun r hr => ⟨hr.keeps (.skip s n), fun hm => ?_⟩
  · obtain ⟨i, hi, rfl⟩ := List.mem_map.mp (new hr)
    exact (hs.temp_reserved (List.mem_range.mp hi)).1
  · obtain ⟨i, -, rfl⟩ := List.mem_map.mp (new hm)
    exact hs.temp_not_given (Nat.le_add_right _ i) hr.1

theorem nil (hs : s.Sound) : Allots table s [] s := temps hs 0 rfl fun _ hr => hr

/-- Code that gives a variable a value. -/
theorem «local» (hs : s.Sound) {name : Bytes} {x : Local} (found : s.find? name = some x)
    (none : allocated code = []) (new : ∀ r ∈ Bril.written code, r = x.reg) :
    Allots table s code s := by
  refine of_allocated_eq_nil none hs (fun _ hr => hr) (fun r hr => ?_)
    fun r hr => ⟨hr, fun hm => ?_⟩
  · exact new r hr ▸ hs.given_local found
  · exact hr.2 _ (FunctionState.mem_locals found) (new r hm).symm

/-- Code that gives a new variable its first value. -/
theorem bind (hs : s.Sound) {name : Bytes} (hn : IsWord name) {type : ClassName}
    (none : allocated code = []) (new : ∀ r ∈ Bril.written code, r = (s.bind name type).1) :
    Allots table s code (s.bind name type).2 := by
  refine of_allocated_eq_nil none (hs.bind hn.dotFree type)
    (fun r hr => (FunctionState.Extends.bind s hn type).given hr) (fun r hr => ?_)
    fun r hr => ⟨(hr.bind hs hn type).1, fun hm => (hr.bind hs hn type).2 (new r hm)⟩
  exact new r hr ▸ FunctionState.Sound.bind_reg_given s name type

theorem object {env : LowerEnv} (hs : s.Sound) {c : ClassName}
    (known : env.table.contains c = true) : Allots env.table s (env.objectCode s.next c)
      ((s.skip 2).recordAlloc (tempName (s.next + 1))) := by
  have keeps := (FunctionState.Keeps.skip s 2).trans (.recordAlloc _ (tempName (s.next + 1)))
  have one : allocated (env.objectCode s.next c) = [tempName (s.next + 1)] := by
    unfold objectCode
    split <;> rfl
  have new (i : Nat) : ¬ s.Given (tempName (s.next + i)) :=
    hs.temp_not_given (Nat.le_add_right _ i)
  have own {r : String} (hr : r ∈ Bril.written (env.objectCode s.next c)) :
      ∃ i < 2, r = tempName (s.next + i) := by
    rcases mem_written_objectCode.mp hr with rfl | rfl
    · exact ⟨0, by decide, rfl⟩
    · exact ⟨1, by decide, rfl⟩
  constructor
  · exact keeps.sound hs
  · exact fun r hr => keeps.given hr
  · intro r hr
    obtain ⟨i, hi, rfl⟩ := own hr
    exact (FunctionState.Keeps.recordAlloc _ _).given (hs.temp_reserved hi).1
  · intro r hr
    refine ⟨hr.keeps keeps, fun hm => ?_⟩
    obtain ⟨i, -, rfl⟩ := own hm
    exact new i hr.1
  · intro r hr
    rw [one, List.mem_singleton] at hr
    subst hr
    exact ⟨new 1, (hs.temp_reserved (by decide)).keeps (.recordAlloc _ _)⟩
  · exact one ▸ List.nodup_singleton _
  · intro r hr i hi hd
    rw [one, List.mem_singleton] at hr
    subst hr
    unfold objectCode at hi
    simp only [List.mem_append, List.mem_cons, List.not_mem_nil, or_false] at hi
    rcases hi with (rfl | rfl) | hi
    · exact absurd (FunctionState.tempName_inj (Option.some.inj hd)) (by omega)
    · exact .inl rfl
    · split at hi
      · cases hi
      · rename_i declared
        exact .inr ⟨c, Bool.eq_false_iff.mpr declared, known, List.mem_singleton.mp hi⟩

theorem branch (h : Allots table s.enterBranch code t) : Allots table s code t.leaveBranch :=
  ⟨h.sound.branch _, h.given, h.written, h.reserved, h.objects, h.distinct, h.kept⟩

theorem pop (h : Allots table s.push code t) : Allots table s code t.pop :=
  ⟨h.sound.pop, h.given, h.written, fun r hr => (h.reserved r hr).imp_left (·.pop),
    fun r hr => (h.objects r hr).imp_right (·.pop), h.distinct, h.kept⟩

end Allots

section Expressions

variable {env : LowerEnv} {s t : FunctionState}

theorem allocated_defaultCode (dest : String) (c : ClassName) :
    allocated (defaultCode dest c) = [] := by
  unfold defaultCode
  cases c.default? <;> rfl

/-- The code of an expression keeps the registers of objects. -/
theorem Lowers.allots {e : Expr} {x : Lowered} (h : Lowers env s e x t) (hs : s.Sound)
    (hw : e.WellFormed) : Allots env.table s x.code t := by
  induction h using Lowers.rec
    (motive_2 := fun s es xs t _ => s.Sound → (∀ e ∈ es, e.WellFormed) →
      Allots env.table s (xs.flatMap (·.code)) t)
    (motive_3 := fun s bs code t _ => s.Sound → (∀ b ∈ bs, Binding.WellFormed b) →
      Allots env.table s code t) with
  | assignLocal _ found ih =>
    cases hw with | assign _ hv =>
    have value := ih hs hv
    exact value.append (.local value.sound found rfl fun r hr => List.mem_singleton.mp hr)
  | assignAttribute _ _ _ ih =>
    cases hw with | assign _ hv =>
    have value := ih hs hv
    rw [List.append_assoc]
    exact value.append (.temps value.sound 2 rfl fun _ hr => hr)
  | selfCall _ _ _ ih =>
    cases hw with | selfCall ha =>
    have args := ih hs ha
    exact args.append (.temps args.sound 1 rfl fun _ hr => hr)
  | call _ _ _ _ ihr iha | staticCall _ _ _ _ ihr iha =>
    cases hw
    rename_i hr ha
    have receiver := ihr hs hr
    have operands := receiver.append (iha receiver.sound ha)
    exact operands.append (.temps operands.sound 1 rfl fun _ hr => hr)
  | @cond s t u w _ _ _ _ x y z _ _ _ iht ihy ihn =>
    cases hw with | cond ht hy hn =>
    have test := iht hs ht
    have yes := (ihy (test.sound.branch _) hy).branch
    have no := (ihn (yes.sound.branch _) hn).branch
    -- The result is written in both arms, but its number is given out behind them.
    have result : tempName (w.next + 1) ∈ (List.range 2).map fun i => tempName (w.next + i) :=
      List.mem_cons_of_mem _ List.mem_cons_self
    refine (((test.append yes).append no).append (.temps no.sound 2 rfl ?_)).perm
      (condCode_perm _ x y z)
    exact List.cons_subset.mpr ⟨result, List.cons_subset.mpr ⟨result, List.nil_subset _⟩⟩
  | @loop s t u _ _ _ x y _ _ iht ihb =>
    cases hw with | loop ht hb =>
    have test := (iht ((hs.skip 1).branch _) ht).branch
    have body := (ihb (test.sound.branch _) hb).branch
    exact (Allots.append (.temps hs 1 rfl (List.nil_subset _)) (test.append body)).perm
      (loopCode_perm _ x y)
  | block _ ih =>
    cases hw with | block _ hb =>
    exact (ih hs.push hb).pop
  | letIn _ _ ihb ih =>
    cases hw with | letIn hn hi hb =>
    have bound := ihb hs.push fun b m => ⟨hn b m, hi b m⟩
    exact (bound.append (ih bound.sound hb)).pop
  | newInt | newBool | int | bool => exact .temps hs 1 rfl fun _ hr => hr
  | newObject _ _ _ _ known => exact .object hs known
  | @binary _ _ _ op _ _ _ _ _ _ _ ihl ihr =>
    cases hw with | binary hl hr =>
    have left := ihl hs hl
    have right := ihr left.sound hr
    refine (left.append right).append (.temps right.sound 1 ?_ fun _ hr => hr)
    cases op <;> rfl
  | not _ ih =>
    cases hw with | unary ho =>
    have operand := ih hs ho
    exact operand.append (.temps operand.sound 1 rfl fun _ hr => hr)
  | complement _ ih =>
    cases hw with | unary ho =>
    have operand := ih hs ho
    exact operand.append (.temps operand.sound 2 rfl fun _ hr => hr)
  | self | «local» => exact .nil hs
  | «attribute» => exact .temps hs 3 rfl fun _ hr => hr
  | group _ ih =>
    cases hw with | group hi =>
    exact ih hs hi
  | nil hs _ => exact .nil hs
  | cons _ _ ih ihs hs hw =>
    rw [List.forall_mem_cons] at hw
    rw [List.flatMap_cons]
    have first := ih hs hw.1
    exact first.append (ihs first.sound hw.2)
  | empty hs _ => exact .nil hs
  | init _ _ ihv ih hs hw =>
    rw [List.forall_mem_cons] at hw
    have value := ihv hs (hw.1.2 _ rfl)
    refine (value.append (.bind value.sound hw.1.1 rfl fun r hr => ?_)).append
      (ih (value.sound.bind hw.1.1.dotFree _) hw.2)
    exact List.mem_singleton.mp hr
  | default _ ih hs hw =>
    rw [List.forall_mem_cons] at hw
    refine (Allots.bind hs hw.1.1 ?_ fun r hr => mem_written_defaultCode hr).append
      (ih (hs.bind hw.1.1.dotFree _) hw.2)
    exact allocated_defaultCode _ _

end Expressions

end Cool
