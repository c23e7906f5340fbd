import Cool.Proofs.Bril.Flow

/-!
Places that control passes on every path. Where no jump leads over a place, each path to a return
goes through it once. An object that is allocated at such a place and freed at a later one is freed
once, however control goes in between.
-/
namespace Cool.Bril

theorem mem_labels {code : List Instr} {l : String} : l ∈ labels code ↔ .label l ∈ code := by
  unfold labels
  rw [List.mem_filterMap]
  constructor
  · rintro ⟨i, hi, same⟩
    cases i <;> cases same
    exact hi
  · exact fun h => ⟨_, h, rfl⟩

section Paths

variable {code before mid part start there passed last a b c : List Instr} {i j k : Instr}
  {l : String}

/-- A label leads to what stands behind it in any part of the code that has it. -/
theorem exists_behind (hn : (labels code).Nodup) (hs : before ++ mid <:+ code)
    (hl : l ∈ labels before) (found : behind? l code = some there) :
    ∃ rest, rest <:+ before ∧ there = rest ++ mid := by
  obtain ⟨first, rest, rfl⟩ := List.append_of_mem (mem_labels.mp hl)
  refine ⟨rest, (List.suffix_cons _ _).trans (List.suffix_append _ _), ?_⟩
  rw [List.append_assoc, List.cons_append] at hs
  have found' := behind?_of_suffix hn ((List.suffix_append _ _).trans hs)
  exact Option.some.inj (found.symm.trans found')

/-- A part of the code that names no labels but its own is left only at its end. -/
theorem Leads.within (h : Leads code (i :: (start ++ mid)) there) (hn : (labels code).Nodup)
    (hs : before ++ mid <:+ code) (own : Contained before) (hx : i :: start <:+ before) :
    ∃ rest, rest <:+ before ∧ there = rest ++ mid := by
  cases h with
  | next => exact ⟨start, (List.suffix_cons _ _).trans hx, rfl⟩
  | jump named found => exact exists_behind hn hs (own i (hx.subset List.mem_cons_self) _ named) found

theorem Path.stays (h : Path code start passed last) (hn : (labels code).Nodup)
    (hs : part <:+ code) (own : Contained part) (inside : start <:+ part) :
    passed ⊆ part ∧ last <:+ part := by
  induction h with
  | here => exact ⟨List.nil_subset _, inside⟩
  | @step i rest there passed last leads path ih =>
    have mem : i ∈ part := inside.subset List.mem_cons_self
    have next : there <:+ part := by
      have whole : part ++ [] <:+ code := by rwa [List.append_nil]
      rw [← List.append_nil rest] at leads
      obtain ⟨rest, suffix, rfl⟩ := leads.within hn whole own inside
      rwa [List.append_nil]
    obtain ⟨others, behind⟩ := ih next
    exact ⟨List.cons_subset.mpr ⟨mem, others⟩, behind⟩

/-- A path goes through a place that it starts before and ends behind, if what stands before names
no labels but its own. -/
theorem Path.through (h : Path code start passed last) (hn : (labels code).Nodup)
    (hs : before ++ mid <:+ code) (own : Contained before)
    (starts : ∃ rest, rest <:+ before ∧ start = rest ++ mid) (ends : last <:+ mid) :
    ∃ p q, passed = p ++ q ∧ p ⊆ before ∧ Path code mid q last := by
  induction h with
  | here =>
    obtain ⟨rest, -, rfl⟩ := starts
    have short := ends.length_le
    rw [List.length_append] at short
    obtain rfl : rest = [] := List.length_eq_zero_iff.mp (by omega)
    exact ⟨[], [], rfl, List.nil_subset _, .here⟩
  | @step i rest there passed last leads path ih =>
    obtain ⟨x, hx, split⟩ := starts
    -- Either nothing is left of what stands before the place, or a step stays within it.
    cases x with
    | nil =>
      cases split
      exact ⟨[], _, rfl, List.nil_subset _, .step leads path⟩
    | cons _ x =>
      cases split
      have mem : i ∈ before := hx.subset List.mem_cons_self
      obtain ⟨p, q, rfl, first, later⟩ := ih (leads.within hn hs own hx) ends
      exact ⟨i :: p, q, rfl, List.cons_subset.mpr ⟨mem, first⟩, later⟩

theorem Path.behind (h : Path code (i :: mid) passed (k :: last)) (hi : i.targets = [])
    (apart : k ≠ i) : ∃ q, passed = i :: q ∧ Path code mid q (k :: last) := by
  cases h with
  | here => exact absurd rfl apart
  | step leads path =>
    cases leads with
    | next => exact ⟨_, rfl, path⟩
    | jump named =>
      rw [hi] at named
      cases named

theorem suffix_of_not_mem (h : k :: last <:+ before ++ mid) (hk : k ∉ before) :
    k :: last <:+ mid := by
  rcases List.suffix_or_suffix_of_suffix h (List.suffix_append before mid) with inside | ⟨x, whole⟩
  · exact inside
  · cases x with
    | nil => exact whole ▸ List.suffix_refl _
    | cons j x =>
      obtain ⟨rfl, rfl⟩ := List.cons.inj whole
      obtain ⟨y, split⟩ := h
      have split : (y ++ j :: x) ++ mid = before ++ mid := by simpa using split
      exact absurd (List.append_cancel_right split ▸ List.mem_append_right y List.mem_cons_self) hk

/-- Two places that no jump leads over are passed on each path, one behind the other. -/
theorem Path.passes (h : Path code code passed (k :: last)) (hn : (labels code).Nodup)
    (hc : code = a ++ i :: (b ++ j :: c)) (ha : Contained a) (hb : Contained b) (hcc : Contained c)
    (hi : i.targets = []) (hj : j.targets = []) (hk : k ∉ a ++ i :: (b ++ [j])) :
    ∃ p q r, passed = p ++ i :: (q ++ j :: r) ∧ p ⊆ a ∧ q ⊆ b ∧ r ⊆ c := by
  simp only [List.mem_append, List.mem_cons, List.not_mem_nil, or_false, not_or] at hk
  obtain ⟨notA, notI, notB, notJ⟩ := hk
  have behindJ := Contained.cons hj hcc
  have behindI := Contained.cons hi (hb.append behindJ)
  have atI : i :: (b ++ j :: c) <:+ code := hc ▸ List.suffix_append _ _
  have atB : b ++ j :: c <:+ code := (List.suffix_cons _ _).trans atI
  have atC : c <:+ code := ((List.suffix_cons _ _).trans (List.suffix_append _ _)).trans atB
  have whole : Contained code := hc ▸ ha.append behindI
  have ended := (h.stays hn (List.suffix_refl _) whole (List.suffix_refl _)).2
  have endI := suffix_of_not_mem (hc ▸ ended) notA
  obtain ⟨p, _, rfl, hp, pathI⟩ :=
    h.through hn (hc ▸ List.suffix_refl _) ha ⟨a, List.suffix_refl _, hc⟩ endI
  obtain ⟨_, rfl, pathB⟩ := pathI.behind hi notI
  have endJ : k :: last <:+ j :: c :=
    suffix_of_not_mem ((List.suffix_cons_iff.mp endI).resolve_left fun same =>
      notI (List.cons.inj same).1) notB
  obtain ⟨q, _, rfl, hq, pathJ⟩ := pathB.through hn atB hb ⟨b, List.suffix_refl _, rfl⟩ endJ
  obtain ⟨r, rfl, pathC⟩ := pathJ.behind hj notJ
  exact ⟨p, q, r, rfl, hp, hq, (pathC.stays hn atC hcc (List.suffix_refl _)).1⟩

end Paths

section Objects

def Instr.allocates? : Instr → Option String
  | .value .alloc dest _ _ _ => some dest
  | .label _ | .const _ _ _ | .value _ _ _ _ _ | .effect _ _ _ _ => none

def Instr.frees : Instr → List String
  | .effect .free args _ _ => args
  | .label _ | .const _ _ _ | .value _ _ _ _ _ | .effect _ _ _ _ => []

def allocated (code : List Instr) : List String := code.filterMap Instr.allocates?

def freed (code : List Instr) : List String := code.flatMap Instr.frees

variable {code path a b c : List Instr} {i j k : Instr} {r : String}
  {Kept : String → Instr → Prop}

@[simp] theorem allocated_append : allocated (a ++ b) = allocated a ++ allocated b :=
  List.filterMap_append

@[simp] theorem freed_append : freed (a ++ b) = freed a ++ freed b := List.flatMap_append

theorem allocated_cons (h : i.allocates? = some r) : allocated (i :: code) = r :: allocated code :=
  List.filterMap_cons_some h

theorem freed_cons (h : i.frees = [r]) : freed (i :: code) = r :: freed code := by
  unfold freed
  rw [List.flatMap_cons, h, List.singleton_append]

theorem allocated_conditional {cond onYes onNo exit : String} :
    allocated (conditional a cond onYes onNo exit b c) =
      allocated a ++ allocated b ++ allocated c := by
  simp [conditional, allocated, List.filterMap_cons, Instr.br, Instr.jmp, Instr.allocates?]

theorem freed_conditional {cond onYes onNo exit : String} :
    freed (conditional a cond onYes onNo exit b c) = freed a ++ freed b ++ freed c := by
  simp [conditional, freed, Instr.br, Instr.jmp, Instr.frees]

theorem freed_repeated {cond start inside exit : String} :
    freed (repeated a cond start inside exit b) = freed a ++ freed b := by
  simp [repeated, freed, Instr.br, Instr.jmp, Instr.frees]

theorem allocated_mono (h : a ⊆ b) : allocated a ⊆ allocated b := List.filterMap_subset _ h

theorem freed_mono (h : a ⊆ b) : freed a ⊆ freed b := fun _ hr =>
  List.mem_flatMap.mpr ((List.mem_flatMap.mp hr).imp fun _ hi => ⟨h hi.1, hi.2⟩)

theorem Instr.plain_of_allocates? (h : i.allocates? = some r) :
    i.frees = [] ∧ i.targets = [] ∧ i.returns = false := by
  cases i with
  | value => exact ⟨rfl, rfl, rfl⟩
  | label | const | effect => cases h

theorem Instr.not_allocates_of_frees (h : i.frees = [r]) : i.allocates? = none := by
  cases i with
  | effect => rfl
  | label | const | value => cases h

theorem Instr.plain_of_calls {call : String × Nat} (h : call ∈ i.calls) :
    i.allocates? = none ∧ i.frees = [] := by
  cases i with
  | value op => cases op <;> first | exact ⟨rfl, rfl⟩ | cases h
  | effect op => cases op <;> first | exact ⟨rfl, rfl⟩ | cases h
  | label | const => cases h

theorem Instr.not_returns_of_frees (h : i.frees = [r]) : i.returns = false := by
  cases i with
  | effect op => cases op <;> first | rfl | cases h
  | label | const | value => cases h

/-- Where no register is allocated twice, one that gets an object at a place gets none elsewhere. -/
theorem not_mem_allocated (distinct : (allocated (a ++ i :: (b ++ j :: c))).Nodup)
    (hi : i.allocates? = some r) (hj : j.frees = [r]) : r ∉ allocated (a ++ (b ++ c)) := by
  have skip : allocated (j :: c) = allocated c :=
    List.filterMap_cons_none (Instr.not_allocates_of_frees hj)
  rw [allocated_append, allocated_cons hi, allocated_append, skip, List.nodup_middle] at distinct
  rw [allocated_append, allocated_append]
  exact (List.nodup_cons.mp distinct).1

theorem not_mem_freed (distinct : (freed (a ++ i :: (b ++ j :: c))).Nodup)
    (hi : i.allocates? = some r) (hj : j.frees = [r]) : r ∉ freed (a ++ (b ++ c)) := by
  have skip : freed (i :: (b ++ j :: c)) = freed (b ++ j :: c) := by
    unfold freed
    rw [List.flatMap_cons, (Instr.plain_of_allocates? hi).1, List.nil_append]
  rw [freed_append, skip, freed_append, freed_cons hj, ← List.append_assoc,
    List.nodup_middle] at distinct
  rw [freed_append, freed_append, ← List.append_assoc]
  exact (List.nodup_cons.mp distinct).1

/-- Whether a register gets an object on a path, keeps it but for what may write it, and has it
freed, and nothing of it happens again. -/
def HeldOnce (Kept : String → Instr → Prop) (path : List Instr) (r : String) : Prop :=
  ∃ a i b j c, path = a ++ i :: (b ++ j :: c) ∧ i.allocates? = some r ∧ j.frees = [r] ∧
    (∀ k ∈ b, k.dest? = some r → Kept r k) ∧
    r ∉ allocated (a ++ (b ++ c)) ∧ r ∉ freed (a ++ (b ++ c))

theorem HeldOnce.count (h : HeldOnce Kept path r) : (freed path).count r = 1 := by
  obtain ⟨a, i, b, j, c, rfl, hi, hj, -, -, others⟩ := h
  have split : freed (a ++ i :: (b ++ j :: c)) = freed a ++ (freed b ++ r :: freed c) := by
    rw [freed_append, ← List.singleton_append, freed_append, freed_append, freed_cons hj]
    simp [freed, (Instr.plain_of_allocates? hi).1]
  rw [split]
  simp only [freed_append, List.mem_append, not_or] at others
  rw [List.count_append, List.count_append, List.count_cons_self,
    List.count_eq_zero_of_not_mem others.1, List.count_eq_zero_of_not_mem others.2.1,
    List.count_eq_zero_of_not_mem others.2.2]

/-- Where code makes an object for a register and where it frees it. No jump leads over these
places, the code does not return before, and the register gets no other object and is not freed
elsewhere. -/
structure Places (code : List Instr) (r : String) (a : List Instr) (i : Instr) (b : List Instr)
    (j : Instr) (c : List Instr) : Prop where
  split : code = a ++ i :: (b ++ j :: c)
  makes : i.allocates? = some r
  frees : j.frees = [r]
  plain : j.targets = []
  front : Contained a
  between : Contained b
  behind : Contained c
  allocated : r ∉ allocated (a ++ (b ++ c))
  freed : r ∉ freed (a ++ (b ++ c))
  stays : ∀ k ∈ a ++ b, k.returns = false

namespace Places

variable (h : Places code r a i b j c)
include h

theorem not_makes (hk : k ∈ a ∨ k ∈ b ∨ k ∈ c ∨ k = j) : k.allocates? ≠ some r := by
  intro new
  have apart := h.allocated
  simp only [allocated_append, List.mem_append, not_or] at apart
  have there {code : List Instr} (hk : k ∈ code) : r ∈ Bril.allocated code :=
    List.mem_filterMap.mpr ⟨k, hk, new⟩
  rcases hk with hk | hk | hk | rfl
  · exact apart.1 (there hk)
  · exact apart.2.1 (there hk)
  · exact apart.2.2 (there hk)
  · cases (Instr.not_allocates_of_frees h.frees).symm.trans new

theorem not_frees (hk : k ∈ a ∨ k = i ∨ k ∈ b ∨ k ∈ c) : r ∉ k.frees := by
  intro gone
  have apart := h.freed
  simp only [freed_append, List.mem_append, not_or] at apart
  have there {code : List Instr} (hk : k ∈ code) : r ∈ Bril.freed code :=
    List.mem_flatMap.mpr ⟨k, hk, gone⟩
  rcases hk with hk | rfl | hk | hk
  · exact apart.1 (there hk)
  · rw [(Instr.plain_of_allocates? h.makes).1] at gone
    cases gone
  · exact apart.2.1 (there hk)
  · exact apart.2.2 (there hk)

end Places

/-- What is allocated and freed at two places that no jump leads over is held once on each path to a
return. -/
theorem Path.heldOnce {last : List Instr} (h : Path code code path (k :: last))
    (hn : (labels code).Nodup) (places : Places code r a i b j c) (returns : k.returns = true)
    (kept : ∀ m ∈ b, m.dest? = some r → Kept r m) : HeldOnce Kept path r := by
  have plain := Instr.plain_of_allocates? places.makes
  have late : k ∉ a ++ i :: (b ++ [j]) := by
    have stays (inside : k ∈ a ++ b) : False :=
      Bool.noConfusion (returns.symm.trans (places.stays k inside))
    simp only [List.mem_append, List.mem_cons, List.not_mem_nil, or_false, not_or]
    refine ⟨fun hk => stays (List.mem_append_left _ hk), ?_, fun hk =>
      stays (List.mem_append_right _ hk), ?_⟩
    · rintro rfl
      exact Bool.noConfusion (returns.symm.trans plain.2.2)
    · rintro rfl
      exact Bool.noConfusion (returns.symm.trans (Instr.not_returns_of_frees places.frees))
  obtain ⟨p, q, s, split, hp, hq, hs⟩ := h.passes hn places.split places.front places.between
    places.behind plain.2.1 places.plain late
  have inside : p ++ (q ++ s) ⊆ a ++ (b ++ c) :=
    List.append_subset.mpr ⟨List.subset_append_of_subset_left _ hp, List.append_subset.mpr
      ⟨List.subset_append_of_subset_right _ (List.subset_append_of_subset_left _ hq),
        List.subset_append_of_subset_right _ (List.subset_append_of_subset_right _ hs)⟩⟩
  exact ⟨p, i, q, j, s, split, places.makes, places.frees, fun m hm => kept m (hq hm),
    fun m => places.allocated (allocated_mono inside m),
    fun m => places.freed (freed_mono inside m)⟩

end Objects

end Cool.Bril
