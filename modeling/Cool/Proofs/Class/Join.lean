import Cool.Proofs.Class.Subtyping

/-!
Joining more than two classes. Declared classes that descend from one declared class are kin. Kin
can be joined in any order, but two that only share a built-in class lose their own lineages there:
what the join keeps of them is refused by any other class.
-/
namespace Cool.ClassTable

variable {t : ClassTable} {classes : List ClassDecl} {a b c d : ClassName}

/-- Whether two classes descend from one declared class. -/
def Kin (t : ClassTable) (a b : ClassName) : Prop :=
  ∃ d, d.isBuiltin = false ∧ d ∈ t.lineage a ∧ d ∈ t.lineage b

/-- Whether two declared classes have a built-in class below `Object` in common that would be lost
if the second was first joined with a third. -/
structure Strays (t : ClassTable) (a b c : ClassName) : Prop where
  declared : a.isBuiltin = false
  builtin : (t.common a b).isBuiltin = true
  below : t.common a b ≠ .object
  third : c = t.common a b ∨ (t.common b c).isBuiltin = false

theorem common_self (t : ClassTable) (a : ClassName) : t.common a a = a := if_pos rfl

/-- A built-in class has nothing but `Object` in common with another class. -/
theorem common_builtin (ha : a.isBuiltin = true) (ne : a ≠ b) : t.common a b = .object := by
  unfold common
  rw [if_neg ne, ha]
  rfl

theorem common_object_left (t : ClassTable) (a : ClassName) : t.common .object a = .object := by
  by_cases same : ClassName.object = a
  · rw [← same, common_self]
  · exact common_builtin rfl same

theorem declared_of_common (below : t.common a b ≠ .object) (hb : b.isBuiltin = false) :
    a.isBuiltin = false := by
  by_contra builtin
  refine below (common_builtin (Bool.eq_true_of_not_eq_false builtin) ?_)
  rintro rfl
  exact builtin hb

namespace Kin

theorem refl (ha : a.isBuiltin = false) : t.Kin a a :=
  ⟨a, ha, t.mem_lineage_self a, t.mem_lineage_self a⟩

theorem symm (k : t.Kin a b) : t.Kin b a := by
  obtain ⟨d, hd, inA, inB⟩ := k
  exact ⟨d, hd, inB, inA⟩

end Kin

namespace Outlines

theorem notBuiltin_of_kin (h : t.Outlines classes) (k : t.Kin a b) : a.isBuiltin = false := by
  obtain ⟨d, hd, inA, _⟩ := k
  exact h.notBuiltin_of_mem_lineage hd inA

theorem kin_trans (h : t.Outlines classes) (k : t.Kin a b) (k' : t.Kin b c) : t.Kin a c := by
  obtain ⟨d, hd, dA, dB⟩ := k
  obtain ⟨e, he, eB, eC⟩ := k'
  rcases h.lineage_total dB eB with up | up
  · exact ⟨d, hd, dA, h.lineage_trans eC up⟩
  · exact ⟨e, he, h.lineage_trans dA up, eC⟩

theorem kin_iff (h : t.Outlines classes) : t.Kin a b ↔ (t.common a b).isBuiltin = false := by
  constructor
  · rintro ⟨d, hd, inA, inB⟩
    refine h.notBuiltin_of_mem_lineage hd (h.mem_lineage_common ?_ ?_ inA inB)
    · exact h.notBuiltin_of_mem_lineage hd inA
    · exact h.notBuiltin_of_mem_lineage hd inB
  · intro declared
    unfold common at declared
    split at declared
    · rename_i same
      exact same ▸ Kin.refl declared
    split at declared
    · cases declared
    cases hc : t.meeting? a b with
    | none =>
      rw [hc] at declared
      cases declared
    | some c =>
      rw [hc] at declared
      obtain ⟨inA, inB⟩ := mem_of_meeting? hc
      exact ⟨c, declared, inA, inB⟩

theorem builtin_of_not_kin (h : t.Outlines classes) (apart : ¬ t.Kin a b) :
    (t.common a b).isBuiltin = true := by
  rw [h.kin_iff, Bool.not_eq_false] at apart
  exact apart

/-- The class that kin have in common is above both and below all else that is. -/
theorem mem_lineage_common_iff (h : t.Outlines classes) (k : t.Kin a b) :
    d ∈ t.lineage (t.common a b) ↔ d ∈ t.lineage a ∧ d ∈ t.lineage b := by
  have ha := h.notBuiltin_of_kin k
  have hb := h.notBuiltin_of_kin k.symm
  refine ⟨fun mem => ?_, fun ⟨inA, inB⟩ => h.mem_lineage_common ha hb inA inB⟩
  obtain ⟨e, _, eA, eB⟩ := k
  by_cases same : a = b
  · subst same
    rw [common_self] at mem
    exact ⟨mem, mem⟩
  · obtain ⟨c, hc, _⟩ := h.meeting?_of_mem eA eB
    have eq : t.common a b = c := by
      unfold common
      rw [if_neg same, ha, hb, hc]
      rfl
    obtain ⟨inA, inB⟩ := mem_of_meeting? hc
    rw [eq] at mem
    exact ⟨h.lineage_trans inA mem, h.lineage_trans inB mem⟩

theorem kin_common (h : t.Outlines classes) (k : t.Kin a b) : t.Kin a (t.common a b) := by
  refine ⟨t.common a b, h.kin_iff.mp k, ?_, t.mem_lineage_self _⟩
  exact ((h.mem_lineage_common_iff k).mp (t.mem_lineage_self _)).1

theorem eq_of_lineage (h : t.Outlines classes) (same : ∀ d, d ∈ t.lineage a ↔ d ∈ t.lineage b) :
    a = b :=
  h.lineage_antisymm ((same a).mp (t.mem_lineage_self a)) ((same b).mpr (t.mem_lineage_self b))

theorem builtin_mem_of_kin (h : t.Outlines classes) (k : t.Kin a b) (hd : d.isBuiltin = true)
    (inA : d ∈ t.lineage a) : d ∈ t.lineage b := by
  obtain ⟨e, he, eA, eB⟩ := k
  rcases h.lineage_total inA eA with up | down
  · exact h.lineage_trans eB up
  · exact absurd ((h.notBuiltin_of_mem_lineage he down).symm.trans hd) Bool.false_ne_true

theorem meeting?_of_kin (h : t.Outlines classes) (k : t.Kin a b) (apart : ¬ t.Kin a c) :
    t.meeting? a c = t.meeting? b c := by
  have side {a b d : ClassName} (k : t.Kin a b) (apart : ¬ t.Kin a c)
      (hd : t.meeting? a c = some d) : ∃ e, t.meeting? b c = some e ∧ d ∈ t.lineage e := by
    obtain ⟨inA, inC⟩ := mem_of_meeting? hd
    have builtin : d.isBuiltin = true := by
      by_contra declared
      exact apart ⟨d, Bool.eq_false_iff.mpr declared, inA, inC⟩
    exact h.meeting?_of_mem (h.builtin_mem_of_kin k builtin inA) inC
  have apart' : ¬ t.Kin b c := fun k' => apart (h.kin_trans k k')
  cases hac : t.meeting? a c with
  | some d =>
    obtain ⟨e, he, above⟩ := side k apart hac
    obtain ⟨f, hf, below⟩ := side k.symm apart' he
    cases hac.symm.trans hf
    rw [he, h.lineage_antisymm above below]
  | none =>
    cases hbc : t.meeting? b c with
    | none => rfl
    | some d =>
      obtain ⟨e, he, _⟩ := side k.symm apart' hbc
      cases hac.symm.trans he

/-- Kin have the same in common with a class that is no kin of theirs. -/
theorem common_of_kin (h : t.Outlines classes) (k : t.Kin a b) (apart : ¬ t.Kin a c) :
    t.common a c = t.common b c := by
  have apart' : ¬ t.Kin b c := fun k' => apart (h.kin_trans k k')
  have ha := h.notBuiltin_of_kin k
  have hb := h.notBuiltin_of_kin k.symm
  have ne : a ≠ c := by
    rintro rfl
    exact apart (Kin.refl ha)
  have ne' : b ≠ c := by
    rintro rfl
    exact apart' (Kin.refl hb)
  unfold common
  rw [if_neg ne, if_neg ne', ha, hb, h.meeting?_of_kin k apart]

theorem common_builtin_right (h : t.Outlines classes) (hb : b.isBuiltin = true) (ne : a ≠ b) :
    t.common a b = .object := by
  rw [h.common_comm]
  exact common_builtin hb ne.symm

theorem common_object_right (h : t.Outlines classes) (a : ClassName) :
    t.common a .object = .object := by
  rw [h.common_comm, common_object_left]

/-- A declared class keeps nothing of two classes that are no kin, so it has to be joined with one
of them first. -/
theorem common_of_not_kin (h : t.Outlines classes) (ha : a.isBuiltin = false)
    (bc : ¬ t.Kin b c) : t.common (t.common a b) c = t.common a (t.common b c) ↔
      ¬ (t.Strays a b c ∨ t.Strays c b a) := by
  have builtin := h.builtin_of_not_kin bc
  have late : t.common a (t.common b c) = .object := by
    refine h.common_builtin_right builtin fun same => ?_
    exact Bool.false_ne_true (ha.symm.trans (same ▸ builtin))
  rw [late]
  by_cases ab : t.Kin a b
  · have early : t.common (t.common a b) c = t.common c b := by
      rw [h.common_comm c b]
      have up := h.kin_trans (h.kin_common ab).symm ab
      exact h.common_of_kin up fun k => bc (h.kin_trans up.symm k)
    rw [early, not_or]
    constructor
    · intro isObject
      refine ⟨fun stray => ?_, fun stray => stray.below isObject⟩
      exact Bool.false_ne_true ((h.kin_iff.mp ab).symm.trans stray.builtin)
    · rintro ⟨_, kept⟩
      by_contra below
      have cb : ¬ t.Kin c b := fun k => bc k.symm
      have hc := declared_of_common below (h.notBuiltin_of_kin ab.symm)
      exact kept ⟨hc, h.builtin_of_not_kin cb, below, .inr (h.kin_iff.mp ab.symm)⟩
  · have shared := h.builtin_of_not_kin ab
    rw [not_or]
    constructor
    · intro isObject
      refine ⟨fun stray => ?_, fun stray => ?_⟩
      · rcases stray.third with rfl | kin
        · rw [common_self] at isObject
          exact stray.below isObject
        · exact bc (h.kin_iff.mpr kin)
      · rcases stray.third with rfl | kin
        · exact Bool.false_ne_true (ha.symm.trans stray.builtin)
        · exact ab (h.kin_iff.mpr kin).symm
    · rintro ⟨kept, _⟩
      by_cases same : t.common a b = c
      · by_contra below
        rw [same, common_self] at below
        exact kept ⟨ha, shared, same ▸ below, .inl same.symm⟩
      · exact common_builtin shared same

/-- The class that three have in common does not depend on which two come first, unless there are
two that stray then. -/
theorem common_assoc_iff (h : t.Outlines classes) :
    t.common (t.common a b) c = t.common a (t.common b c) ↔
      ¬ (t.Strays a b c ∨ t.Strays c b a) := by
  by_cases ab : t.Kin a b
  · by_cases bc : t.Kin b c
    · have before : t.Kin (t.common a b) c :=
        h.kin_trans (h.kin_trans (h.kin_common ab).symm ab) bc
      have after : t.Kin a (t.common b c) := h.kin_trans ab (h.kin_common bc)
      refine iff_of_true (h.eq_of_lineage fun d => ?_) ?_
      · rw [h.mem_lineage_common_iff before, h.mem_lineage_common_iff ab,
          h.mem_lineage_common_iff after, h.mem_lineage_common_iff bc, and_assoc]
      · rintro (stray | stray)
        · exact Bool.false_ne_true ((h.kin_iff.mp ab).symm.trans stray.builtin)
        · exact Bool.false_ne_true ((h.kin_iff.mp bc.symm).symm.trans stray.builtin)
    · exact h.common_of_not_kin (h.notBuiltin_of_kin ab) bc
  · cases hc : c.isBuiltin with
    | false =>
      have mirrored := h.common_of_not_kin hc fun k => ab k.symm
      rw [or_comm, ← mirrored, h.common_comm c b, h.common_comm b a,
        h.common_comm (t.common b c) a, h.common_comm c (t.common a b)]
      exact eq_comm
    | true =>
      cases ha : a.isBuiltin with
      | false =>
        refine h.common_of_not_kin ha fun k => ?_
        exact Bool.false_ne_true ((h.notBuiltin_of_kin k.symm).symm.trans hc)
      | true =>
        refine iff_of_true ?_ ?_
        · by_cases first : a = b
          · subst first
            rw [common_self]
            by_cases second : a = c
            · rw [second, common_self, common_self]
            · rw [common_builtin ha second, h.common_object_right]
          · rw [common_builtin ha first, common_object_left]
            by_cases second : b = c
            · rw [second, common_self, common_builtin ha (second ▸ first)]
            · rw [h.common_builtin_right hc second, h.common_object_right]
        · rintro (stray | stray)
          · exact Bool.false_ne_true (stray.declared.symm.trans ha)
          · exact Bool.false_ne_true (stray.declared.symm.trans hc)

end Outlines

section Lists

variable {b : Builtin} {cs ds : List ClassName}

/-- The class that classes have in common, when they are joined in order. -/
def commonOf (t : ClassTable) : List ClassName → ClassName
  | [] => .object
  | c :: cs => cs.foldl t.common c

/-- Whether classes are kin, then one that has a built-in class in common with them, and then that
built-in class any number of times. -/
inductive Funnels (t : ClassTable) (b : Builtin) : List ClassName → Prop where
  | intro {first odd n} (near : List ClassName) : first.isBuiltin = false →
      (∀ c ∈ near, t.Kin first c) → t.common first odd = .builtin b →
      t.Funnels b (first :: (near ++ odd :: List.replicate n (.builtin b)))

/-- Whether classes have more than `Object` in common in some orders only. -/
def OrderMatters (t : ClassTable) (cs : List ClassName) : Prop :=
  3 ≤ cs.length ∧ ∃ b ds, b ≠ .object ∧ t.Funnels b ds ∧ ds.Perm cs

theorem foldl_object (t : ClassTable) (cs : List ClassName) :
    cs.foldl t.common .object = .object := by
  induction cs with
  | nil => rfl
  | cons c cs ih => rw [List.foldl_cons, common_object_left, ih]

theorem foldl_builtin_self (t : ClassTable) (b : Builtin) (n : Nat) :
    (List.replicate n (.builtin b)).foldl t.common (.builtin b) = .builtin b := by
  induction n with
  | zero => rfl
  | succ n ih => rw [List.replicate_succ, List.foldl_cons, common_self, ih]

/-- A built-in class below `Object` is left of a built-in class only if nothing else comes. -/
theorem foldl_builtin (hc : c.isBuiltin = true) (below : b ≠ .object)
    (left : cs.foldl t.common c = .builtin b) :
    c = .builtin b ∧ cs = List.replicate cs.length (.builtin b) := by
  induction cs generalizing c with
  | nil => exact ⟨left, rfl⟩
  | cons d cs ih =>
    rw [List.foldl_cons] at left
    by_cases same : c = d
    · subst same
      rw [common_self] at left
      obtain ⟨eq, rest⟩ := ih hc left
      refine ⟨eq, ?_⟩
      rw [List.length_cons, List.replicate_succ, ← rest, ← eq]
    · rw [common_builtin hc same, foldl_object] at left
      exact absurd (ClassName.builtin.inj left).symm below

namespace Outlines

theorem mem_lineage_foldl (h : t.Outlines classes) (kin : ∀ d ∈ cs, t.Kin c d) :
    d ∈ t.lineage (cs.foldl t.common c) ↔ ∀ e ∈ c :: cs, d ∈ t.lineage e := by
  induction cs generalizing c with
  | nil => simp
  | cons e cs ih =>
    obtain ⟨next, rest⟩ := List.forall_mem_cons.mp kin
    have still : ∀ d ∈ cs, t.Kin (t.common c e) d := fun d hd =>
      h.kin_trans (h.kin_common next).symm (rest d hd)
    rw [List.foldl_cons, ih still]
    simp only [List.forall_mem_cons, h.mem_lineage_common_iff next, and_assoc]

theorem kin_foldl (h : t.Outlines classes) (hc : c.isBuiltin = false) (kin : ∀ d ∈ cs, t.Kin c d) :
    t.Kin c (cs.foldl t.common c) := by
  induction cs generalizing c with
  | nil => exact Kin.refl hc
  | cons e cs ih =>
    obtain ⟨next, rest⟩ := List.forall_mem_cons.mp kin
    have up := h.kin_common next
    exact h.kin_trans up (ih (h.notBuiltin_of_kin up.symm) fun d hd =>
      h.kin_trans up.symm (rest d hd))

theorem commonOf_kin (h : t.Outlines classes) (perm : cs.Perm ds)
    (kin : ∀ c ∈ cs, ∀ d ∈ cs, t.Kin c d) : t.commonOf cs = t.commonOf ds := by
  cases cs with
  | nil => rw [perm.nil_eq]
  | cons c cs =>
    cases ds with
    | nil => cases perm.eq_nil
    | cons d ds =>
      have kin' : ∀ e ∈ d :: ds, ∀ f ∈ d :: ds, t.Kin e f := fun e he f hf =>
        kin e (perm.mem_iff.mpr he) f (perm.mem_iff.mpr hf)
      refine h.eq_of_lineage fun e => ?_
      change e ∈ t.lineage (cs.foldl t.common c) ↔ e ∈ t.lineage (ds.foldl t.common d)
      rw [h.mem_lineage_foldl fun f hf => kin c List.mem_cons_self f (List.mem_cons_of_mem c hf),
        h.mem_lineage_foldl fun f hf => kin' d List.mem_cons_self f (List.mem_cons_of_mem d hf)]
      exact ⟨fun all f hf => all f (perm.mem_iff.mpr hf),
        fun all f hf => all f (perm.mem_iff.mp hf)⟩

theorem commonOf_funnel (h : t.Outlines classes) (funnel : t.Funnels b cs) :
    t.commonOf cs = .builtin b := by
  obtain @⟨first, odd, n, near, declared, kin, meets⟩ := funnel
  have up := h.kin_foldl declared kin
  have apart : ¬ t.Kin first odd := fun k => by
    have := h.kin_iff.mp k
    rw [meets] at this
    cases this
  change (near ++ odd :: List.replicate n (.builtin b)).foldl t.common first = _
  rw [List.foldl_append, List.foldl_cons, ← h.common_of_kin up apart, meets, foldl_builtin_self]

/-- A built-in class below `Object` is left of a declared class only behind its kin. -/
theorem funnel_of_foldl (h : t.Outlines classes) (hc : c.isBuiltin = false) (below : b ≠ .object)
    (left : cs.foldl t.common c = .builtin b) : t.Funnels b (c :: cs) := by
  induction cs generalizing c with
  | nil =>
    subst left
    cases hc
  | cons d cs ih =>
    rw [List.foldl_cons] at left
    by_cases kin : t.Kin c d
    · have up := h.kin_common kin
      have rest := ih (h.notBuiltin_of_kin up.symm) left
      generalize ha : t.common c d = a at up rest
      obtain @⟨_, odd, n, near, _, more, meets⟩ := rest
      have apart : ¬ t.Kin c odd := fun k => by
        have := h.kin_iff.mp (h.kin_trans up.symm k)
        rw [meets] at this
        cases this
      refine Funnels.intro (d :: near) hc ?_ ((h.common_of_kin up apart).trans meets)
      exact List.forall_mem_cons.mpr ⟨kin, fun e he => h.kin_trans up (more e he)⟩
    · obtain ⟨meets, rest⟩ := foldl_builtin (h.builtin_of_not_kin kin) below left
      rw [rest]
      exact Funnels.intro [] hc (List.forall_mem_nil _) meets

/-- A declared class is left only of kin. -/
theorem kin_of_foldl (h : t.Outlines classes) (left : (cs.foldl t.common c).isBuiltin = false) :
    ∀ d ∈ c :: cs, t.Kin c d := by
  induction cs generalizing c with
  | nil => simpa using Kin.refl left
  | cons d cs ih =>
    obtain ⟨here, rest⟩ := List.forall_mem_cons.mp (ih left)
    have kin : t.Kin c d := h.kin_iff.mpr (h.notBuiltin_of_kin here)
    have up := h.kin_common kin
    refine List.forall_mem_cons.mpr ⟨h.kin_trans kin kin.symm, ?_⟩
    exact List.forall_mem_cons.mpr ⟨kin, fun e he => h.kin_trans up (rest e he)⟩

theorem commonOf_builtin (h : t.Outlines classes) (apart : ¬ ∀ c ∈ cs, ∀ d ∈ cs, t.Kin c d) :
    ∃ b, t.commonOf cs = .builtin b := by
  cases left : t.commonOf cs with
  | builtin b => exact ⟨b, rfl⟩
  | named _ | selfType =>
    cases cs with
    | nil => cases left
    | cons e cs =>
      have declared : (cs.foldl t.common e).isBuiltin = false := congrArg ClassName.isBuiltin left
      have all := h.kin_of_foldl declared
      exact absurd (fun c hc d hd => h.kin_trans (all c hc).symm (all d hd)) apart

/-- A funnel of three or more, entered at its end, leaves nothing but `Object`. -/
theorem commonOf_turned (h : t.Outlines classes) (below : b ≠ .object) (funnel : t.Funnels b cs)
    (long : 3 ≤ cs.length) : ∃ ds, ds.Perm cs ∧ t.commonOf ds = .object := by
  obtain @⟨first, odd, n, near, declared, kin, meets⟩ := funnel
  have meets' : t.common odd first = .builtin b := (h.common_comm odd first).trans meets
  have declared' : odd.isBuiltin = false := by
    refine declared_of_common (t := t) (b := first) (fun same => below ?_) declared
    exact ClassName.builtin.inj (meets'.symm.trans same)
  have apart {c : ClassName} (hc : c.isBuiltin = false) : ClassName.builtin b ≠ c := by
    rintro rfl
    cases hc
  refine ⟨(odd :: List.replicate n (ClassName.builtin b)) ++ (first :: near),
    List.perm_append_comm, ?_⟩
  change (List.replicate n (ClassName.builtin b) ++ first :: near).foldl t.common odd = .object
  cases n with
  | succ n =>
    rw [List.replicate_succ, List.cons_append, List.foldl_cons,
      h.common_builtin_right rfl (apart declared').symm, foldl_object]
  | zero =>
    cases near with
    | nil => exact absurd long (Nat.not_succ_le_self 2)
    | cons c near =>
      have hc := h.notBuiltin_of_kin (kin c List.mem_cons_self).symm
      rw [List.replicate_zero, List.nil_append, List.foldl_cons, meets', List.foldl_cons,
        common_builtin rfl (apart hc), foldl_object]

theorem orderMatters_of_builtin (h : t.Outlines classes) (perm : cs.Perm ds) (below : b ≠ .object)
    (left : t.commonOf cs = .builtin b) (apart : t.commonOf ds ≠ .builtin b) :
    t.OrderMatters cs := by
  cases cs with
  | nil => exact absurd (ClassName.builtin.inj left).symm below
  | cons c cs =>
    cases hc : c.isBuiltin with
    | true =>
      obtain ⟨rfl, rest⟩ := foldl_builtin hc below left
      rw [rest, ← List.replicate_succ] at perm
      rw [List.perm_replicate.mp perm.symm] at apart
      exact absurd (foldl_builtin_self t b _) apart
    | false =>
      have funnel := h.funnel_of_foldl hc below left
      refine ⟨Nat.le_of_not_lt fun short => apart ?_, b, _, below, funnel, List.Perm.refl _⟩
      -- Two classes have the same in common either way round.
      generalize c :: cs = ds' at perm short funnel
      obtain @⟨first, odd, n, near, declared, kin, meets⟩ := funnel
      have two : near = [] ∧ n = 0 := by
        rw [List.length_cons, List.length_append, List.length_cons, List.length_replicate] at short
        exact ⟨List.eq_nil_of_length_eq_zero (by omega), by omega⟩
      obtain ⟨rfl, rfl⟩ := two
      rcases List.perm_pair.mp perm.symm with rfl | rfl
      · exact meets
      · exact (h.common_comm odd first).trans meets

/-- Classes have the same in common in every order, unless they make a funnel of three or more. -/
theorem commonOf_perm_iff (h : t.Outlines classes) (cs : List ClassName) :
    (∀ ds, ds.Perm cs → t.commonOf ds = t.commonOf cs) ↔ ¬ t.OrderMatters cs := by
  constructor
  · rintro same ⟨long, b, ds, below, funnel, perm⟩
    obtain ⟨es, turned, isObject⟩ := h.commonOf_turned below funnel (perm.length_eq ▸ long)
    have left := (h.commonOf_funnel funnel).symm.trans (same ds perm)
    rw [← same es (turned.trans perm), isObject] at left
    exact below (ClassName.builtin.inj left)
  · intro safe ds perm
    by_cases kin : ∀ c ∈ cs, ∀ d ∈ cs, t.Kin c d
    · exact (h.commonOf_kin perm.symm kin).symm
    · have kin' : ¬ ∀ c ∈ ds, ∀ d ∈ ds, t.Kin c d := fun all =>
        kin fun c hc d hd => all c (perm.mem_iff.mpr hc) d (perm.mem_iff.mpr hd)
      obtain ⟨b, hb⟩ := h.commonOf_builtin kin
      obtain ⟨b', hb'⟩ := h.commonOf_builtin kin'
      by_contra apart
      by_cases below : b = .object
      · have below' : b' ≠ .object := by
          rintro rfl
          exact apart (by rw [hb, hb', below])
        obtain ⟨long, b, es, lower, funnel, reach⟩ :=
          h.orderMatters_of_builtin perm below' hb' fun same => apart (hb'.trans same.symm)
        exact safe ⟨perm.length_eq ▸ long, b, es, lower, funnel, reach.trans perm⟩
      · refine safe (h.orderMatters_of_builtin perm.symm below hb fun same => ?_)
        exact apart (same.trans hb.symm)

end Outlines

end Lists

end Cool.ClassTable
