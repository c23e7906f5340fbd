import Cool.Proofs.Bril.Freeing
import Cool.Proofs.Lowering.Calls
import Cool.Proofs.Lowering.ControlFlow
import Cool.Proofs.Lowering.FunctionNames
import Cool.Proofs.Lowering.Laid
import Cool.Proofs.Lowering.Objects
import Cool.Proofs.Lowering.Operands

/-!
What a program frees. The function that it starts with frees the objects that it allocates outside
of the arms of conditionals and of loops, each once on every path. No other function frees any.
-/
namespace Cool

open Bril (Function Instr Path HeldOnce allocated freed labels written)
open FunctionState (tempName)

section Functions

/-- Whether a function frees the objects that it allocates outside of the arms of conditionals and
of loops, and no others. It does so once for each on every path to a return, out of the register
that the object was allocated for, which in between nothing but a constructor of the object
writes. -/
structure FreesOwn (table : ClassTable) (f : Function) : Prop where
  distinct : (freed f.instrs).Nodup
  own : (allocated f.instrs).Nodup
  outside : ∀ r, r ∈ freed f.instrs ↔ AllocatesOutside f.instrs r
  kept : ∀ a i b j c r, f.instrs = a ++ i :: (b ++ j :: c) → i.allocates? = some r →
    j.frees = [r] → ∀ k ∈ b, k.dest? = some r → Constructs table r k
  once : ∀ path i last, Path f.instrs f.instrs path (i :: last) → i.returns = true →
    (freed path).Perm (freed f.instrs) ∧
      ∀ r ∈ freed f.instrs, HeldOnce (Constructs table) path r

structure Releases (table : ClassTable) (f : Function) (main : List Instr) (made : List String) :
    Prop where
  code : f.instrs = main ++ made.map (fun r => Instr.perform .free [r]) ++ [Instr.ret none]
  routed : f.Routed
  laid : Laid main made []
  own : (allocated main).Nodup
  kept : ∀ r ∈ allocated main, ∀ i ∈ main, i.dest? = some r →
    i.allocates? = some r ∨ Constructs table r i

namespace Releases

variable {table : ClassTable} {f : Function} {main a b c path last : List Instr}
  {made : List String} {i j k : Instr} {r : String}

theorem mem_main (h : Releases table f main made) (hi : i ∈ f.instrs) (hr : i.dest? = some r) :
    i ∈ main := by
  rw [h.code, List.append_assoc] at hi
  refine (List.mem_append.mp hi).resolve_right fun late => ?_
  rcases List.mem_append.mp late with late | late
  · obtain ⟨_, -, rfl⟩ := List.mem_map.mp late
    cases hr
  · cases List.mem_singleton.mp late
    cases hr

theorem allocated_eq (h : Releases table f main made) : allocated f.instrs = allocated main := by
  rw [h.code, List.append_assoc, Bril.allocated_append, List.append_right_eq_self]
  refine List.filterMap_eq_nil_iff.mpr fun i hi => ?_
  rcases List.mem_append.mp hi with hi | hi
  · obtain ⟨_, -, rfl⟩ := List.mem_map.mp hi
    rfl
  · cases List.mem_singleton.mp hi
    rfl

theorem laid_instrs (h : Releases table f main made) : Laid f.instrs made made := by
  have last : Laid [.ret none] [] [] := .row rfl
  have laid := (h.laid.append (.frees made)).append last
  rwa [← h.code, List.append_nil, List.append_nil, List.nil_append, List.append_nil] at laid

theorem freed_eq (h : Releases table f main made) : freed f.instrs = made := h.laid_instrs.freed_eq

theorem distinct (h : Releases table f main made) : (freed f.instrs).Nodup :=
  h.freed_eq ▸ h.laid.made_sublist.nodup h.own

theorem between (h : Releases table f main made) (split : f.instrs = a ++ i :: (b ++ j :: c))
    (hi : i.allocates? = some r) (hj : j.frees = [r]) (hk : k ∈ b) (hr : k.dest? = some r) :
    Constructs table r k := by
  have object : r ∈ allocated main := h.allocated_eq ▸
    List.mem_filterMap.mpr ⟨i, split ▸ List.mem_append_right _ List.mem_cons_self, hi⟩
  have inside : k ∈ f.instrs :=
    split ▸ List.mem_append_right _ (List.mem_cons_of_mem _ (List.mem_append_left _ hk))
  refine (h.kept r object k (h.mem_main inside hr) hr).resolve_left fun again => ?_
  have own : (allocated f.instrs).Nodup := h.allocated_eq ▸ h.own
  refine Bril.not_mem_allocated (split ▸ own) hi hj (List.mem_filterMap.mpr ⟨k, ?_, again⟩)
  exact List.mem_append_right _ (List.mem_append_left _ hk)

/-- No jump leads over the places where an object is allocated and freed. -/
theorem places (h : Releases table f main made) (hr : r ∈ freed f.instrs) :
    ∃ a i b j c, Bril.Places f.instrs r a i b j c := by
  have hr : r ∈ made := h.freed_eq ▸ hr
  have own : (allocated f.instrs).Nodup := h.allocated_eq ▸ h.own
  obtain ⟨a, i, b, shape, new, ⟨_, _, first⟩, ⟨_, _, second⟩⟩ := h.laid.exists_alloc hr
  obtain ⟨before, after, rfl⟩ := List.append_of_mem hr
  have split : f.instrs = a ++ i :: ((b ++ before.map fun r => Instr.perform .free [r]) ++
      Instr.perform .free [r] :: (after.map (fun r => Instr.perform .free [r]) ++
        [Instr.ret none])) := by
    rw [h.code, shape]
    simp
  have third : Laid (after.map (fun r => Instr.perform .free [r]) ++ [Instr.ret none]) _ _ :=
    (Laid.frees after).append (.row rfl)
  refine ⟨a, i, _, _, _, split, new, rfl, rfl, first.contained,
    (second.append (.frees before)).contained, third.contained,
    Bril.not_mem_allocated (split ▸ own) new rfl, Bril.not_mem_freed (split ▸ h.distinct) new rfl,
    fun k hk => Bool.eq_false_iff.mpr fun returns => ?_⟩
  -- The only return stands behind all that is freed.
  have late := h.routed.not_mem_of_returns h.code returns
  simp only [shape, List.map_append, List.map_cons, List.mem_append, List.mem_cons] at late hk
  grind

theorem held (h : Releases table f main made) (walk : Path f.instrs f.instrs path (k :: last))
    (returns : k.returns = true) (hr : r ∈ freed f.instrs) :
    HeldOnce (Constructs table) path r := by
  obtain ⟨a, i, b, j, c, places⟩ := h.places hr
  exact walk.heldOnce h.routed.distinct places returns fun m hm =>
    h.between places.split places.makes places.frees hm

/-- What a path frees is what the function frees. -/
theorem freed_perm (h : Releases table f main made)
    (walk : Path f.instrs f.instrs path (k :: last)) (returns : k.returns = true) :
    (freed path).Perm (freed f.instrs) := by
  have inside : path ⊆ f.instrs := (walk.stays h.routed.distinct (List.suffix_refl _)
    h.laid_instrs.contained (List.suffix_refl _)).1
  have known : ∀ r ∈ freed path, r ∈ freed f.instrs := fun _ hr => Bril.freed_mono inside hr
  have single : (freed path).Nodup := List.nodup_iff_count_le_one.mpr fun r => by
    by_cases hr : r ∈ freed path
    · exact (h.held walk returns (known r hr)).count.le
    · rw [List.count_eq_zero_of_not_mem hr]
      exact Nat.zero_le 1
  refine (List.perm_ext_iff_of_nodup single h.distinct).mpr fun r => ⟨known r, fun hr => ?_⟩
  exact List.count_pos_iff.mp (by rw [(h.held walk returns hr).count]; exact Nat.one_pos)

/-- A function that frees what it has made does so when it runs, if the calls on the objects hand
them back and nothing that is called frees any. -/
theorem frees (h : Releases table f main made) {p : Bril.Program} (known : f ∈ p.functions)
    (handed : ∀ r, ∀ i ∈ f.instrs, Constructs table r i → p.HandsBack r i)
    (calm : ∀ g ∈ p.functions, ∀ i ∈ g.instrs, ∀ call ∈ i.calls, ∀ callee,
      p.find? call.1 = some callee → freed callee.instrs = []) : p.Frees f where
  known := known
  distinct := h.routed.distinct
  places _ hr := h.places hr
  kept r hr i hi hd := by
    have object : r ∈ allocated main := h.laid.made_sublist.subset (h.freed_eq ▸ hr)
    exact (h.kept r object i (h.mem_main hi hd) hd).imp_right (handed r i hi)
  calm := calm

theorem freesOwn (h : Releases table f main made) : FreesOwn table f where
  distinct := h.distinct
  own := h.allocated_eq ▸ h.own
  outside _ := h.freed_eq ▸ h.laid_instrs.mem_made_iff h.routed.distinct
  kept _ _ _ _ _ _ split hi hj _ hk hr := h.between split hi hj hk hr
  once _ _ _ walk returns := ⟨h.freed_perm walk returns, fun _ hr => h.held walk returns hr⟩

end Releases

end Functions

section Attributes

variable {env : LowerEnv} {s t : FunctionState} {a : Attribute} {as : List Attribute}
  {code : List Instr}

theorem Sets.laid (h : Sets env s a code t) : ∃ made, Laid code made [] := by
  cases h with
  | init _ lowers _ =>
    obtain ⟨made, laid, -⟩ := lowers.records
    rw [List.append_assoc]
    exact ⟨_, laid.append (.row rfl)⟩
  | default | none => exact ⟨[], .row rfl⟩

theorem setAttributes_laid (h : (env.setAttributes as).run s = .ok code t) :
    ∃ made, Laid code made [] := by
  induction as generalizing s code with
  | nil =>
    cases h
    exact ⟨[], .nil⟩
  | cons a as ih =>
    obtain ⟨_, _, _, set, sets, rfl⟩ := run_setAttributes_cons_eq_ok.mp h
    obtain ⟨made, first⟩ := (Sets.of_run set).laid
    obtain ⟨more, rest⟩ := ih sets
    exact ⟨made ++ more, first.append rest⟩

theorem tempName_ne_selfReg (n : Nat) : tempName n ≠ selfReg := fun same =>
  not_dotFree_append "t" (toString n) (show DotFree (tempName n) from same ▸ by decide)

theorem Sets.self_not_written (h : Sets env s a code t) (hs : s.Sound)
    (hw : Binding.WellFormed a) : selfReg ∉ written code := by
  have temps (n : Nat) (k : Nat) : selfReg ∉ (List.range k).map fun i => tempName (n + i) := by
    intro hm
    obtain ⟨i, -, same⟩ := List.mem_map.mp hm
    exact tempName_ne_selfReg _ same
  cases h with
  | init present lowers _ =>
    rw [List.append_assoc, Bril.written_append, List.mem_append, not_or]
    exact ⟨lowers.self_not_written hs (hw.2 _ present), temps _ 2⟩
  | default => exact temps _ 3
  | none => exact List.not_mem_nil

theorem setAttributes_self_not_written (h : (env.setAttributes as).run s = .ok code t)
    (hs : s.Sound) (hw : ∀ a ∈ as, Binding.WellFormed a) : selfReg ∉ written code := by
  induction as generalizing s code with
  | nil =>
    cases h
    exact List.not_mem_nil
  | cons a as ih =>
    rw [List.forall_mem_cons] at hw
    obtain ⟨_, _, _, set, sets, rfl⟩ := run_setAttributes_cons_eq_ok.mp h
    rw [Bril.written_append, List.mem_append, not_or]
    exact ⟨(Sets.of_run set).self_not_written hs hw.1,
      ih sets (((Sets.of_run set).keeps hw.1).sound hs) hw.2⟩

end Attributes

namespace Member

variable {t : ClassTable} {e : Entry} {b : Member} {f : Function}

/-- Only the function that a program starts with frees objects. -/
theorem function_freed (h : b.function t e = .ok f) (notEntry : ¬ b.IsEntry e) :
    freed f.instrs = [] := by
  have nothing {code : List Instr} {reg : String} (laid : ∃ made, Laid code made []) :
      freed (code ++ [Instr.ret (some reg)]) = [] := by
    obtain ⟨_, laid⟩ := laid
    rw [Bril.freed_append, laid.freed_eq]
    rfl
  cases makes_of_function h with
  | constructor _ called set =>
    obtain ⟨_, code⟩ := setAttributes_laid set
    obtain ⟨rfl, -⟩ | ⟨_, -, -, -, rfl⟩ := parentCall_ok called
    · exact nothing ⟨_, code⟩
    · exact nothing ⟨_, (Laid.row rfl).append code⟩
  | entry isEntry => exact absurd (isEntry_iff.mp isEntry) notEntry
  | method _ _ body =>
    obtain ⟨made, laid, -⟩ := body.records
    exact nothing ⟨made, laid⟩

theorem laid_start (env : LowerEnv) : Laid
    [Instr.literal (tempName 0) (.int (env.table.objectSize env.self)),
      .compute .alloc selfReg .object [tempName 0],
      .call selfReg .object env.self.constructorName [selfReg]] [selfReg] [] := by
  have size : Laid [.literal (tempName 0) (.int (env.table.objectSize env.self))] [] [] := .row rfl
  have call : Laid [.call selfReg .object env.self.constructorName [selfReg]] [] [] := .row rfl
  exact size.append ((Laid.alloc rfl).append call)

variable {files : SourceFiles} {classes : List ClassDecl} {c : ClassDecl} {m : Method}

theorem constructor_handsBack (h : Accepted files classes t) (hc : c ∈ classes)
    (hf : (constructor c).function t e = .ok f) (routed : f.Routed) : f.HandsBack := by
  cases makes_of_function hf with
  | @constructor _ _ call s code _ _ called set =>
    have sound := (parentCall_keeps called).sound FunctionState.initial_sound
    have attributes := setAttributes_self_not_written set sound
      fun _ ha => (h.wellFormed hc).attribute ha
    have parent : selfReg ∉ written call := by
      obtain ⟨rfl, -⟩ | ⟨_, -, -, -, rfl⟩ := parentCall_ok called
      · exact List.not_mem_nil
      · exact fun hm => tempName_ne_selfReg _ (List.mem_singleton.mp hm).symm
    refine ⟨selfReg, rfl, ?_, fun i hi returns => ?_⟩
    · simp only [Bril.written_append, List.mem_append, not_or]
      exact ⟨⟨parent, attributes⟩, List.not_mem_nil⟩
    · have last := routed.not_mem_of_returns rfl returns
      exact List.mem_singleton.mp ((List.mem_append.mp hi).resolve_left last)

/-- The function that a program starts with frees its receiver and what it makes besides. -/
theorem entry_releases (h : Accepted files classes t) (hc : c ∈ classes) (hm : m ∈ c.methods)
    (isEntry : (method c m).IsEntry e) (hf : (method c m).function t e = .ok f)
    (routed : f.Routed) : ∃ main made, Releases t f main (selfReg :: made) := by
  cases makes_of_function hf with
  | method notEntry => exact absurd isEntry (isEntry_eq_false.mp notEntry)
  | @entry _ _ x u _ body =>
    have declared : c.className.isBuiltin = false := (h.admits hc).notBuiltin
    have known : t.contains c.className = true :=
      (h.outlines.contains_iff_mem declared).mpr ⟨c, hc, rfl⟩
    have first := FunctionState.initial_sound
    have allots := body.allots (first.skip 1) ((h.wellFormed hc).method hm).2
    obtain ⟨made, laid, -, recorded⟩ := body.records
    have pending : u.takePending.1 = made := recorded rfl
    have given : (FunctionState.initial.skip 1).Given selfReg := .inl (first.skip 1).self
    have size : (FunctionState.initial.skip 1).Given (tempName 0) := .inr ⟨0, Nat.one_pos, rfl⟩
    have self := (allots.reserved selfReg (first.skip 1).reserved_self).2
    have new : ∀ r ∈ allocated x.code, r ≠ selfReg ∧ r ≠ tempName 0 := fun r hr =>
      ⟨fun same => (allots.objects r hr).1 (same ▸ given),
        fun same => (allots.objects r hr).1 (same ▸ size)⟩
    refine ⟨_, made, {
      code := by simp [pending, ClassDecl.lowerEnv]
      routed := routed
      laid := (laid_start (c.lowerEnv t)).append laid
      own := List.nodup_cons.mpr ⟨fun hr => (new _ hr).1 rfl, allots.distinct⟩
      kept := fun r hr i hi hd => ?_ }⟩
    have hr : r ∈ selfReg :: allocated x.code := hr
    simp only [List.mem_append, List.mem_cons, List.not_mem_nil, or_false] at hi hr
    rcases hi with (rfl | rfl | rfl) | hi
    · cases hd
      rcases hr with same | hr
      · exact absurd same (tempName_ne_selfReg 0)
      · exact absurd rfl (new _ hr).2
    · cases hd
      exact .inl rfl
    · cases hd
      exact .inr ⟨_, declared, known, rfl⟩
    · rcases hr with rfl | hr
      · exact absurd (Allots.mem_written hi hd) self
      · exact allots.kept r hr i hi hd

end Member

section Program

variable {files : SourceFiles} {classes : List ClassDecl} {t : ClassTable} {e : Entry}
  {p : Bril.Program}

theorem isEntry_of_name (h : Accepted files classes t) {b : Member}
    (hb : b ∈ membersOf t classes) {f : Function} (hf : b.function t e = .ok f)
    (main : f.name = entryName) : b.IsEntry e := by
  obtain ⟨known, declared⟩ := mem_membersOf.mp hb
  by_contra notEntry
  rw [(Member.function_profile hf).1] at main
  exact Member.functionName_ne_entryName (h.named known) declared notEntry main

theorem memberName_ne_entryName (c : ClassName) (member : Bytes) :
    c.memberName member ≠ entryName := by
  intro same
  have inside : '_' ∈ (c.memberName member).toList := by simp [ClassName.memberName]
  rw [same] at inside
  exact absurd inside (by decide)

theorem Accepted.entry_releases (h : Accepted files classes t) (made : generate t e classes = .ok p)
    {f : Function} (hf : f ∈ p.functions) (main : f.name = entryName) :
    ∃ main made, Releases t f main (selfReg :: made) := by
  rcases builtin_or_member made hf with builtin | ⟨b, hb, function⟩
  · cases List.mem_singleton.mp builtin
    exact absurd main (by decide)
  · have isEntry := isEntry_of_name h hb function main
    cases b with
    | constructor => exact isEntry.elim
    | method c m =>
      obtain ⟨hc, hm⟩ := mem_membersOf.mp hb
      exact Member.entry_releases h hc hm isEntry function (generate_routed made f hf)

theorem freed_of_name_ne (made : generate t e classes = .ok p) {f : Function}
    (hf : f ∈ p.functions) (other : f.name ≠ entryName) : freed f.instrs = [] := by
  rcases builtin_or_member made hf with builtin | ⟨b, hb, function⟩
  · cases List.mem_singleton.mp builtin
    rfl
  · refine Member.function_freed function fun isEntry => other ?_
    rw [(Member.function_profile function).1, Member.functionName, if_pos isEntry]

/-- No function calls the one that the program starts with, and the others free nothing. -/
theorem Accepted.callee_freed (h : Accepted files classes t) (made : generate t e classes = .ok p)
    {f g : Function} (hf : f ∈ p.functions) {call : String × Nat} (hc : call ∈ callsIn f.instrs)
    (found : p.find? call.1 = some g) : freed g.instrs = [] := by
  have name : g.name = call.1 := by simpa using List.find?_some found
  refine freed_of_name_ne made (List.mem_of_find?_eq_some found) (name ▸ ?_)
  rcases builtin_or_member made hf with builtin | ⟨b, hb, function⟩
  · cases List.mem_singleton.mp builtin
    cases hc
  · obtain ⟨known, declared⟩ := mem_membersOf.mp hb
    rcases h.function_calls known declared function call hc with
      ⟨_, _, owner, method, _, -, -, rfl⟩ | ⟨d, -, rfl⟩
    · exact memberName_ne_entryName owner method.text
    · exact memberName_ne_entryName d.className _

/-- Whether the constructors that a function calls are found by their names. -/
def Unshadowed (t : ClassTable) (e : Entry) (classes : List ClassDecl) (f : Function) : Prop :=
  ∀ c ∈ classes, (c.className.constructorName, 1) ∈ callsIn f.instrs → ¬ c.Shadowed t e classes

theorem Accepted.handsBack (h : Accepted files classes t) (made : generate t e classes = .ok p)
    {f : Function} (calm : Unshadowed t e classes f) {r : String} {i : Instr} (hi : i ∈ f.instrs)
    (constructs : Constructs t r i) : p.HandsBack r i := by
  obtain ⟨_, declared, known, rfl⟩ := constructs
  obtain ⟨c, hc, rfl⟩ := h.mem_of_contains declared known
  have called : (c.className.constructorName, 1) ∈ callsIn f.instrs :=
    List.mem_flatMap.mpr ⟨_, hi, List.mem_singleton_self _⟩
  obtain ⟨g, hg, function⟩ :=
    exists_function made (mem_membersOf.mpr ⟨hc, trivial⟩ : .constructor c ∈ membersOf t classes)
  exact ⟨_, _, g, rfl, (find?_constructorName h made hc function).1 (calm c hc called),
    Member.constructor_handsBack h hc function (generate_routed made g hg)⟩

/-- The function that an accepted program starts with frees its receiver and the objects that it
allocates outside of the arms of conditionals and of loops: it has a place for each, once on every
path to its return, and no other function frees any object. So in every run each of these objects is
freed once, if the constructors that the function calls are found by their names. -/
theorem Accepted.frees_once (h : Accepted files classes t) (made : generate t e classes = .ok p) :
    (∀ f ∈ p.functions, f.name = entryName → FreesOwn t f ∧ selfReg ∈ freed f.instrs) ∧
    (∀ f ∈ p.functions, f.name ≠ entryName → freed f.instrs = []) ∧
    ∀ f ∈ p.functions, f.name = entryName → Unshadowed t e classes f →
      Bril.FreesOnce p f (AllocatesOutside f.instrs) := by
  refine ⟨fun f hf main => ?_, fun f hf => freed_of_name_ne made hf, fun f hf main calm => ?_⟩
  · obtain ⟨_, _, releases⟩ := h.entry_releases made hf main
    exact ⟨releases.freesOwn, releases.freed_eq ▸ List.mem_cons_self⟩
  · obtain ⟨_, _, releases⟩ := h.entry_releases made hf main
    have program : p.Frees f := releases.frees hf (fun _ _ hi => h.handsBack made calm hi)
      fun g hg i hi call hc _ => h.callee_freed made hg (List.mem_flatMap.mpr ⟨i, hi, hc⟩)
    rw [← funext fun r => propext (releases.freesOwn.outside r)]
    exact program.freesOnce

end Program

def scattered : SourceFiles := .ofLines [
  "class A \x7b x : Int; set(o : Object) : A \x7b self \x7d; \x7d;",
  "class Main \x7b",
  "  main() : Object \x7b \x7b",
  "    new A;",
  "    if true then new A else new A fi;",
  "    while false loop new A pool;",
  "    (new A).set(new Object);",
  "  \x7d \x7d;",
  "\x7d;"]

theorem scattered_computed : SourceFiles.CompiledInOrder scattered .default ∧
    ((SourceFiles.codeInOrder scattered .default).functions.map (·.name)).Nodup ∧
    ∃ f ∈ (SourceFiles.codeInOrder scattered .default).functions, f.name = entryName ∧
      freed f.instrs = ["self", "t.2", "t.15", "t.17"] := by
  decide +kernel

theorem frees_once_scattered :
    generate (SourceFiles.tableInOrder scattered) .default (SourceFiles.classes scattered) =
      .ok (SourceFiles.codeInOrder scattered .default) ∧
    ∃ f ∈ (SourceFiles.codeInOrder scattered .default).functions,
      FreesOwn (SourceFiles.tableInOrder scattered) f ∧
        freed f.instrs = ["self", "t.2", "t.15", "t.17"] ∧
        Bril.FreesOnce (SourceFiles.codeInOrder scattered .default) f
          (AllocatesOutside f.instrs) := by
  obtain ⟨compiled, distinct, f, hf, named, frees⟩ := scattered_computed
  obtain ⟨accepted, made⟩ := SourceFiles.compiled_inOrder compiled
  have calm := (nodup_names_iff accepted made).mp distinct
  obtain ⟨own, -, runs⟩ := accepted.frees_once made
  exact ⟨made, f, hf, (own f hf named).1, frees,
    runs f hf named fun _ _ _ shadowed => calm (.of_shadowed shadowed)⟩

/-- A program with a method that is called like the constructor of another class, and makes an object
of its own. -/
def usurped : SourceFiles := .ofLines [
  "class A \x7b b__constructor() : Object \x7b new Object \x7d; \x7d;",
  "class A__b \x7b \x7d;",
  "class Main \x7b main() : Object \x7b new A__b \x7d; \x7d;"]

theorem usurped_computed : SourceFiles.CompiledInOrder usurped .default ∧
    ∃ f ∈ (SourceFiles.codeInOrder usurped .default).functions, f.name = entryName ∧
      "t.2" ∈ freed f.instrs ∧
      ∃ x ∈ (Bril.State.start f).finish (SourceFiles.codeInOrder usurped .default) .exact 40,
        Bril.madeIn x.1 = [("self", 0), ("t.2", 1)] ∧
          Bril.freedIn x.1 = [("self", 0), ("t.2", 2)] := by
  decide +kernel

theorem usurped_refutes :
    Accepted usurped (SourceFiles.classes usurped) (SourceFiles.tableInOrder usurped) ∧
    generate (SourceFiles.tableInOrder usurped) .default (SourceFiles.classes usurped) =
      .ok (SourceFiles.codeInOrder usurped .default) ∧
    ∃ f ∈ (SourceFiles.codeInOrder usurped .default).functions, f.name = entryName ∧
      ¬ Bril.FreesOnce (SourceFiles.codeInOrder usurped .default) f
        (AllocatesOutside f.instrs) := by
  obtain ⟨compiled, f, hf, named, reg, ⟨passed, last⟩, finished, new, gone⟩ := usurped_computed
  obtain ⟨accepted, made⟩ := SourceFiles.compiled_inOrder compiled
  refine ⟨accepted, made, f, hf, named, fun frees => ?_⟩
  obtain ⟨_, _, releases⟩ := accepted.entry_releases made hf named
  have own := (releases.freesOwn.outside "t.2").mp reg
  obtain ⟨run, done⟩ := Bril.Run.of_finish finished
  have object : ("t.2", 1) ∈ Bril.freedIn passed :=
    frees.all .exact passed last run done ("t.2", 1) (by simp [new]) own
  rw [gone] at object
  exact absurd object (by decide)

end Cool
