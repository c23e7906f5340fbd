import Cool.Lowering.FunctionState
import Cool.Proofs.Text.Apart
import Cool.Proofs.Tree.WellFormed

/-!
No two names that a function gives out are the same. Words have no dot, so a name with a dot is
told apart by what stands before the dot and by the number behind it.
-/
namespace Cool

def DotFree (s : String) : Prop := '.' ∉ s.toList

instance (s : String) : Decidable (DotFree s) := inferInstanceAs (Decidable ('.' ∉ s.toList))

theorem append_dot_inj {a b x y : List Char} (ha : '.' ∉ a) (hb : '.' ∉ b)
    (h : a ++ '.' :: x = b ++ '.' :: y) : a = b ∧ x = y := by
  induction a generalizing b with
  | nil =>
    cases b with
    | nil => exact ⟨rfl, (List.cons.inj h).2⟩
    | cons c b =>
      have hc : '.' = c := (List.cons.inj h).1
      exact absurd (hc ▸ List.mem_cons_self) hb
  | cons c a ih =>
    cases b with
    | nil =>
      have hc : c = '.' := (List.cons.inj h).1
      exact absurd (hc ▸ List.mem_cons_self) ha
    | cons d b =>
      obtain ⟨hc, h⟩ := List.cons.inj h
      obtain ⟨rfl, hxy⟩ := ih (fun m => ha (List.mem_cons_of_mem _ m))
        (fun m => hb (List.mem_cons_of_mem _ m)) h
      exact ⟨by rw [hc], hxy⟩

theorem DotFree.append_inj {a b x y : String} (ha : DotFree a) (hb : DotFree b)
    (h : a ++ "." ++ x = b ++ "." ++ y) : a = b ∧ x = y := by
  have h := congrArg String.toList h
  simp only [String.toList_append, List.append_assoc] at h
  obtain ⟨hab, hxy⟩ := append_dot_inj ha hb h
  exact ⟨String.toList_inj.mp hab, String.toList_inj.mp hxy⟩

theorem not_dotFree_append (a x : String) : ¬ DotFree (a ++ "." ++ x) := by
  simp [DotFree]

theorem dotFree_toString (n : Nat) : DotFree (toString n) :=
  fun dot => absurd (digits_of_nat n '.' dot) (by decide)

/-- What stands behind the last dot tells two names apart as well. -/
theorem DotFree.append_inj_right {a b x y : String} (hx : DotFree x) (hy : DotFree y)
    (h : a ++ "." ++ x = b ++ "." ++ y) : a = b ∧ x = y := by
  have h := congrArg (fun s => s.toList.reverse) h
  simp only [String.toList_append, List.reverse_append] at h
  obtain ⟨hxy, hab⟩ := append_dot_inj (fun dot => hx (List.mem_reverse.mp dot))
    (fun dot => hy (List.mem_reverse.mp dot)) h
  exact ⟨String.toList_inj.mp (List.reverse_injective hab),
    String.toList_inj.mp (List.reverse_injective hxy)⟩

section Dots

theorem toNat_ofNat {n : Nat} (h : n.isValidChar) : (Char.ofNat n).toNat = n := by
  rw [Char.ofNat, dif_pos h]
  rfl

theorem eq_of_ofNat_eq_dot {n : Nat} (h : Char.ofNat n = '.') : n = 46 := by
  by_cases valid : n.isValidChar
  · exact (toNat_ofNat valid).symm.trans (congrArg Char.toNat h)
  · rw [Char.ofNat, dif_neg valid] at h
    cases h

/-- Whether what has been begun comes to more than one byte can write: it has a bit beyond the next
six, or the next byte brings one and another byte follows. -/
def Utf8.Begun.Wide (p : Begun) : Prop := 0 < p.bits ∨ p.owed ≠ 1 ∧ 0x80 < p.low.toNat

theorem wide_of_lead {b : UInt8} {p : Utf8.Begun} (h : Utf8.lead b = .begun p) : p.Wide := by
  unfold Utf8.lead at h
  unfold Utf8.Begun.Wide
  simp only at h
  split_ifs at h
  all_goals
    obtain rfl := Utf8.Lead.begun.inj h
    first
      | decide
      | (simp only; omega)

/-- A byte behind what is wide brings it to more than one byte can write, or keeps it wide. -/
theorem Utf8.Begun.Wide.bits_pos {p : Utf8.Begun} (wide : p.Wide) {b : UInt8} (low : p.low ≤ b) :
    0 < p.bits * 64 + (b.toNat - 0x80) := by
  have low : p.low.toNat ≤ b.toNat := UInt8.le_iff_toNat_le.mp low
  rcases wide with bits | ⟨-, brings⟩
  · omega
  · omega

theorem eq_dot_of_lead {b : UInt8} (h : Utf8.lead b = .whole '.') : b = byte '.' := by
  unfold Utf8.lead at h
  simp only at h
  split_ifs at h
  have same := eq_of_ofNat_eq_dot (Utf8.Lead.whole.inj h)
  exact UInt8.toNat_inj.mp same

/-- A dot is written by its own byte, and by no other. -/
theorem dot_mem_of_decodeAfter {begun : Option Utf8.Begun} {bs : Bytes}
    (wide : ∀ p ∈ begun, p.Wide) (h : some '.' ∈ Utf8.decodeAfter begun bs) : byte '.' ∈ bs := by
  fun_induction Utf8.decodeAfter begun bs with
  | case1 | case2 => simp at h
  | case3 p b bs inside bits last ih =>
    rcases List.mem_cons.mp h with dot | later
    · have same : bits = 46 := eq_of_ofNat_eq_dot (Option.some.inj dot.symm)
      rcases wide p rfl with high | ⟨more, -⟩
      · omega
      · exact absurd last more
    · exact List.mem_cons_of_mem _ (ih nofun later)
  | case4 p b bs inside bits more ih =>
    rw [Bool.and_eq_true, decide_eq_true_eq] at inside
    refine List.mem_cons_of_mem _ (ih (fun q hq => ?_) h)
    obtain rfl := Option.some.inj hq
    exact .inl ((wide p rfl).bits_pos inside.1)
  | case5 p b bs outside c whole ih =>
    have h := (List.mem_cons.mp h).resolve_left nofun
    rcases List.mem_cons.mp h with dot | later
    · cases dot
      exact eq_dot_of_lead whole ▸ List.mem_cons_self
    · exact List.mem_cons_of_mem _ (ih nofun later)
  | case6 p b bs outside q begins ih =>
    have later := (List.mem_cons.mp h).resolve_left nofun
    refine List.mem_cons_of_mem _ (ih (fun r hr => ?_) later)
    obtain rfl := Option.some.inj hr
    exact wide_of_lead begins
  | case7 p b bs outside stray ih =>
    have later := (List.mem_cons.mp ((List.mem_cons.mp h).resolve_left nofun)).resolve_left nofun
    exact List.mem_cons_of_mem _ (ih nofun later)
  | case8 b bs c whole ih =>
    rcases List.mem_cons.mp h with dot | later
    · cases dot
      exact eq_dot_of_lead whole ▸ List.mem_cons_self
    · exact List.mem_cons_of_mem _ (ih nofun later)
  | case9 b bs q begins ih =>
    refine List.mem_cons_of_mem _ (ih (fun r hr => ?_) h)
    obtain rfl := Option.some.inj hr
    exact wide_of_lead begins
  | case10 b bs stray ih =>
    have later := (List.mem_cons.mp h).resolve_left nofun
    exact List.mem_cons_of_mem _ (ih nofun later)

theorem dotFree_lossy {name : Bytes} (h : byte '.' ∉ name) : DotFree (Utf8.lossy name) := by
  intro dot
  unfold Utf8.lossy at dot
  rw [String.toList_ofList] at dot
  obtain ⟨c, mem, same⟩ := List.mem_map.mp dot
  cases c with
  | none => cases same
  | some c =>
    cases same
    exact h (dot_mem_of_decodeAfter (by simp) mem)

end Dots

section Words

theorem lead_of_lt {b : UInt8} (h : b.toNat < 0x80) :
    Utf8.lead b = .whole (Char.ofNat b.toNat) := by
  simp [Utf8.lead, h]

theorem decode_of_lt {bs : Bytes} (h : ∀ b ∈ bs, b.toNat < 0x80) :
    Utf8.decode bs = bs.map fun b => some (Char.ofNat b.toNat) := by
  unfold Utf8.decode
  induction bs with
  | nil => rfl
  | cons b bs ih =>
    rw [List.forall_mem_cons] at h
    rw [Utf8.decodeAfter, lead_of_lt h.1, List.map_cons, ← ih h.2]

theorem isNameByte_lt {b : UInt8} (h : Scan.isNameByte b = true) : b.toNat < 0x80 := by
  simp [Scan.isNameByte, isLetter, isUpper, isLower, isDigit, byte, UInt8.le_iff_toNat_le,
    ← UInt8.toNat_inj] at h
  omega

theorem IsWord.lossy_eq {name : Bytes} (h : IsWord name) :
    Utf8.lossy name = String.ofList (name.map fun b => Char.ofNat b.toNat) := by
  unfold Utf8.lossy
  rw [decode_of_lt fun b hb => isNameByte_lt (h b hb), List.map_map]
  rfl

theorem IsWord.dotFree {name : Bytes} (h : IsWord name) : DotFree (Utf8.lossy name) :=
  dotFree_lossy fun dot => absurd (h _ dot) (by decide)

theorem IsWord.append {a b : Bytes} (ha : IsWord a) (hb : IsWord b) : IsWord (a ++ b) := by
  intro c hc
  exact (List.mem_append.mp hc).elim (ha c) (hb c)

theorem IsWord.lossy_append {a b : Bytes} (ha : IsWord a) (hb : IsWord b) :
    Utf8.lossy (a ++ b) = Utf8.lossy a ++ Utf8.lossy b := by
  rw [(ha.append hb).lossy_eq, ha.lossy_eq, hb.lossy_eq, List.map_append, String.ofList_append]

theorem IsWord.lossy_inj {a b : Bytes} (ha : IsWord a) (hb : IsWord b)
    (h : Utf8.lossy a = Utf8.lossy b) : a = b := by
  rw [ha.lossy_eq, hb.lossy_eq, String.ofList_inj] at h
  induction a generalizing b with
  | nil => exact (List.map_eq_nil_iff.mp h.symm).symm
  | cons x a ih =>
    cases b with
    | nil => cases h
    | cons y b =>
      obtain ⟨hxy, h⟩ := List.cons.inj h
      have valid {z : UInt8} (hz : Scan.isNameByte z = true) : z.toNat.isValidChar :=
        .inl (Nat.lt_trans (isNameByte_lt hz) (by decide))
      have same := congrArg Char.toNat hxy
      rw [toNat_ofNat (valid (ha x List.mem_cons_self)),
        toNat_ofNat (valid (hb y List.mem_cons_self)), UInt8.toNat_inj] at same
      rw [same, ih (fun z hz => ha z (List.mem_cons_of_mem x hz))
        (fun z hz => hb z (List.mem_cons_of_mem y hz)) h]

end Words

end Cool
