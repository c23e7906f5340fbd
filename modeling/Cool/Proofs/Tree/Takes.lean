import Cool.Proofs.Tree.Reads

/-!
What readers do on tokens that are known. `Takes` says that a reader takes tokens of given values
and makes something of them, unless expressions nest too deep in them. It is closed under sequence
and repetition, where each reader is told what may come behind its tokens.
-/
namespace Cool.Reader

def Spelt (vs : List TokenValue) (items rest : List ScanItem) : Prop :=
  ∃ ts : List Token, ts.map Token.value = vs ∧ items = ts.map .ok ++ rest

/-- The kind of the first of some tokens, where `o` is the kind of the token behind them. -/
def first (vs : List TokenValue) (o : Option TokenKind) : Option TokenKind :=
  match vs with
  | [] => o
  | v :: _ => some v.kind

theorem first_ne {v : TokenValue} {k : TokenKind} (h : v.kind ≠ k) {vs : List TokenValue}
    {o : Option TokenKind} : first (v :: vs) o ≠ some k :=
  fun same => h (Option.some.inj same)

namespace Spelt

variable {v : TokenValue} {vs ws : List TokenValue} {items rest : List ScanItem}

theorem eq_of_nil (h : Spelt [] items rest) : items = rest := by
  obtain ⟨ts, values, rfl⟩ := h
  rw [List.map_eq_nil_iff.mp values]
  rfl

theorem of_cons (h : Spelt (v :: vs) items rest) :
    ∃ t mid, items = .ok t :: mid ∧ t.value = v ∧ Spelt vs mid rest := by
  obtain ⟨ts, values, rfl⟩ := h
  obtain ⟨t, ts, rfl, value, values⟩ := List.map_eq_cons_iff.mp values
  exact ⟨t, _, rfl, value, ts, values, rfl⟩

theorem of_append (h : Spelt (vs ++ ws) items rest) :
    ∃ mid, Spelt vs items mid ∧ Spelt ws mid rest := by
  obtain ⟨ts, values, rfl⟩ := h
  obtain ⟨front, back, rfl, hf, hb⟩ := List.map_eq_append_iff.mp values
  exact ⟨_, ⟨front, hf, by simp⟩, back, hb, rfl⟩

theorem next_eq (h : Spelt vs items rest) : next items = first vs (next rest) := by
  cases vs with
  | nil => rw [h.eq_of_nil, first]
  | cons v vs =>
    obtain ⟨t, mid, rfl, rfl, _⟩ := h.of_cons
    rfl

theorem next_tail_eq (h : Spelt (v :: vs) items rest) : next items.tail = first vs (next rest) := by
  obtain ⟨t, mid, rfl, _, behind⟩ := h.of_cons
  exact behind.next_eq

theorem length_eq (h : Spelt vs items rest) : items.length = vs.length + rest.length := by
  obtain ⟨ts, rfl, rfl⟩ := h
  simp

end Spelt

/-! ## Single steps -/

variable {α β : Type}

structure ComesTo (p : Prop) (Q : α → Prop) (rest : List ScanItem)
    (out : Except ParseError (α × List ScanItem)) : Prop where
  result : p → ∃ a, out = .ok (a, rest) ∧ Q a
  fault : ¬p → ∃ span, out = .error (.nestedTooDeeply span)

/-- Whether a reader takes tokens of the values `vs` if the kind of the token behind them is in `F`,
and makes something with `Q` of them where `p` says that nothing nests too deep. -/
def Takes (vs : List TokenValue) (F : Option TokenKind → Prop) (p : Prop) (r : Reader α)
    (Q : α → Prop) : Prop :=
  ∀ items rest, Spelt vs items rest → F (next rest) → ComesTo p Q rest (r items)

variable {v : TokenValue} {vs ws : List TokenValue} {F F' G : Option TokenKind → Prop}
  {p p' q : Prop} {r : Reader α} {Q Q' : α → Prop} {R : β → Prop}

theorem takes_pure {a : α} (h : Q a) : Takes [] F True (pure a) Q := by
  intro items rest spelt _
  cases spelt.eq_of_nil
  exact ⟨fun _ => ⟨a, rfl, h⟩, fun no => absurd trivial no⟩

theorem ComesTo.imp {rest : List ScanItem} {out : Except ParseError (α × List ScanItem)}
    (h : ComesTo p Q rest out) (hQ : ∀ a, Q a → Q' a) : ComesTo p Q' rest out := by
  refine ⟨fun fits => ?_, h.fault⟩
  obtain ⟨a, ok, ha⟩ := h.result fits
  exact ⟨a, ok, hQ a ha⟩

namespace Takes

theorem of_iff (h : Takes vs F p r Q) (hp : p ↔ p') : Takes vs F p' r Q :=
  propext hp ▸ h

theorem imp (h : Takes vs F p r Q) (hQ : ∀ a, Q a → Q' a) : Takes vs F p r Q' :=
  fun items rest spelt behind => (h items rest spelt behind).imp hQ

theorem behind (h : Takes vs F p r Q) (hF : ∀ o, F' o → F o) : Takes vs F' p r Q :=
  fun items rest spelt behind => h items rest spelt (hF _ behind)

theorem congr {s : Reader α} (h : Takes vs F p s Q)
    (same : ∀ items rest, Spelt vs items rest → F (next rest) → r items = s items) :
    Takes vs F p r Q :=
  fun items rest spelt behind =>
    (same items rest spelt behind).symm ▸ h items rest spelt behind

theorem bind {f : α → Reader β} (h : Takes vs F p r Q) (hF : ∀ o, G o → F (first ws o))
    (hf : ∀ a, Q a → Takes ws G q (f a) R) : Takes (vs ++ ws) G (p ∧ q) (r >>= f) R := by
  intro items rest spelt behind
  obtain ⟨mid, front, back⟩ := spelt.of_append
  obtain ⟨result, fault⟩ := h items mid front (back.next_eq ▸ hF _ behind)
  by_cases fits : p
  · obtain ⟨a, ok, ha⟩ := result fits
    obtain ⟨result, fault⟩ := hf a ha mid rest back behind
    rw [bind_of_ok ok]
    exact ⟨fun all => result all.2, fun no => fault fun fits' => no ⟨fits, fits'⟩⟩
  · obtain ⟨span, error⟩ := fault fits
    exact ⟨fun all => absurd all.1 fits, fun _ => ⟨span, bind_of_error error⟩⟩

theorem last {f : α → Reader β} (h : Takes vs F p r Q) (hf : ∀ a, Q a → Takes [] F True (f a) R) :
    Takes vs F p (r >>= f) R := by
  rw [← vs.append_nil]
  exact (h.bind (fun _ behind => behind) hf).of_iff (by simp)

theorem bind_pure {f : α → β} (h : Takes vs F p r Q) (hf : ∀ a, Q a → R (f a)) :
    Takes vs F p (r >>= fun a => pure (f a)) R :=
  h.last fun a ha => takes_pure (hf a ha)

theorem token {f : α → Reader β} (h : Takes [v] (fun _ => True) True r Q)
    (hf : ∀ a, Q a → Takes ws G q (f a) R) : Takes (v :: ws) G q (r >>= f) R :=
  (h.bind (fun _ _ => trivial) hf).of_iff (by simp)

theorem map {f : α → β} (h : Takes vs F p r Q) (hf : ∀ a, Q a → R (f a)) :
    Takes vs F p (f <$> r) R := by
  rw [map_eq_pure_bind]
  exact h.bind_pure hf

theorem oneOf {kinds : List TokenKind} {f : Token → Reader β} (hv : v.kind ∈ kinds)
    (hf : ∀ t, t.value = v → Takes ws G q (f t) R) :
    Takes (v :: ws) G q (oneOf kinds >>= f) R := by
  intro items rest spelt behind
  obtain ⟨t, mid, rfl, rfl, back⟩ := spelt.of_cons
  have ok : Reader.oneOf kinds (.ok t :: mid) = .ok (t, mid) := if_pos hv
  rw [bind_of_ok ok]
  exact hf t rfl mid rest back behind

theorem symbol {s : Symbol} {f : Token → Reader β} (hf : ∀ t, Takes ws G q (f t) R) :
    Takes (.symbol s :: ws) G q (symbol s >>= f) R :=
  .oneOf (List.mem_singleton_self _) fun t _ => hf t

theorem kind?_some {k : TokenKind} {f : Option Token → Reader β} (hv : v.kind = k)
    (hf : ∀ t, Takes ws G q (f (some t)) R) : Takes (v :: ws) G q (kind? k >>= f) R := by
  intro items rest spelt behind
  obtain ⟨t, mid, rfl, rfl, back⟩ := spelt.of_cons
  have ok : Reader.kind? k (.ok t :: mid) = .ok (some t, mid) := if_pos hv
  rw [bind_of_ok ok]
  exact hf t mid rest back behind

theorem kind?_none {k : TokenKind} {f : Option Token → Reader β}
    (other : ∀ o, G o → ∃ k', first ws o = some k' ∧ k' ≠ k) (hf : Takes ws G q (f none) R) :
    Takes ws G q (kind? k >>= f) R := by
  intro items rest spelt behind
  obtain ⟨k', seen, ne⟩ := other _ behind
  obtain ⟨t, mid, rfl, rfl⟩ := exists_of_next (spelt.next_eq.trans seen)
  have ok : Reader.kind? k (.ok t :: mid) = .ok (none, .ok t :: mid) := if_neg ne
  rw [bind_of_ok ok]
  exact hf _ rest spelt behind

theorem kind?_other {k : TokenKind} {v : TokenValue} {vs : List TokenValue}
    {f : Option Token → Reader β} (other : v.kind ≠ k) (hf : Takes (v :: vs) G q (f none) R) :
    Takes (v :: vs) G q (kind? k >>= f) R :=
  .kind?_none (fun _ _ => ⟨_, rfl, other⟩) hf

theorem head? {f : Option TokenKind → Reader β}
    (hf : ∀ o, G o → Takes ws G q (f (first ws o)) R) : Takes ws G q (head? >>= f) R := by
  intro items rest spelt behind
  rw [bind_of_ok (head?_eq items), spelt.next_eq]
  exact hf _ behind items rest spelt behind

theorem second? {f : Option TokenKind → Reader β}
    (hf : ∀ o, G o → Takes (v :: ws) G q (f (first ws o)) R) :
    Takes (v :: ws) G q (second? >>= f) R := by
  intro items rest spelt behind
  obtain ⟨t, mid, rfl, rfl, back⟩ := spelt.of_cons
  rw [bind_of_ok (second?_eq _), List.tail_cons, back.next_eq]
  exact hf _ behind _ rest spelt behind

theorem here {f : Position → Reader β} (taken : ws ≠ []) (hf : ∀ at_, Takes ws G q (f at_) R) :
    Takes ws G q (here >>= f) R := by
  intro items rest spelt behind
  obtain ⟨v, vs, rfl⟩ := List.exists_cons_of_ne_nil taken
  obtain ⟨t, mid, rfl, _, _⟩ := spelt.of_cons
  have ok : Reader.here (.ok t :: mid) = .ok (t.span.start, .ok t :: mid) := rfl
  rw [bind_of_ok ok]
  exact hf _ _ rest spelt behind

end Takes

/-! ## Rounds -/

/-- Whether rounds from a state on take tokens of the values `vs`; like `Takes`. -/
def Continues (step : α → Reader (Round α β)) (a : α) (vs : List TokenValue)
    (F : Option TokenKind → Prop) (p : Prop) (R : β → Prop) : Prop :=
  ∀ items rest (bound : List ScanItem), Spelt vs items rest → F (next rest) →
    items.length ≤ bound.length → ComesTo p R rest (rounds step bound a items)

namespace Continues

variable {step : α → Reader (Round α β)} {a : α}

theorem repeating (h : Continues step a vs F p R) : Takes vs F p (repeating step a) R :=
  fun items rest spelt behind => h items rest items spelt behind (Nat.le_refl _)

theorem of_iff (h : Continues step a vs F p R) (hp : p ↔ p') : Continues step a vs F p' R :=
  propext hp ▸ h

theorem stop (h : Takes vs F p (step a) fun round => ∃ b, round = .stop b ∧ R b) :
    Continues step a vs F p R := by
  intro items rest bound spelt behind _
  obtain ⟨result, fault⟩ := h items rest spelt behind
  refine ⟨fun fits => ?_, fun no => ?_⟩
  · obtain ⟨_, ok, b, rfl, hb⟩ := result fits
    exact ⟨b, rounds_stop ok, hb⟩
  · obtain ⟨span, error⟩ := fault no
    exact ⟨span, rounds_error error⟩

theorem more (h : Takes vs F p (step a) fun round => ∃ b, round = .more b ∧ Q b) (taken : vs ≠ [])
    (hF : ∀ o, G o → F (first ws o)) (hb : ∀ b, Q b → Continues step b ws G q R) :
    Continues step a (vs ++ ws) G (p ∧ q) R := by
  intro items rest bound spelt behind enough
  obtain ⟨mid, front, back⟩ := spelt.of_append
  obtain ⟨result, fault⟩ := h items mid front (back.next_eq ▸ hF _ behind)
  by_cases fits : p
  · obtain ⟨_, ok, b, rfl, hQ⟩ := result fits
    -- The round takes a token, so the bound that is left covers the items that are left.
    have shorter : mid.length < items.length := by
      have := List.length_pos_iff.mpr taken
      have := front.length_eq
      omega
    cases bound with
    | nil => simp only [List.length_nil] at enough; omega
    | cons i bound =>
      simp only [List.length_cons] at enough
      obtain ⟨result, fault⟩ := hb b hQ mid rest bound back behind (by omega)
      rw [rounds_more ok]
      exact ⟨fun all => result all.2, fun no => fault fun fits' => no ⟨fits, fits'⟩⟩
  · obtain ⟨span, error⟩ := fault fits
    exact ⟨fun all => absurd all.1 fits, fun _ => ⟨span, rounds_error error⟩⟩

end Continues

/-! ## Lists

Rounds that put items in front of those found so far. Of the items only `view` matters. -/

section Lists

variable {γ : Type} {step : List α → Reader (Round (List α) β)} {view : α → γ} {fits : α → Prop}
  {row : α → List TokenValue} {fin : List TokenValue} {xs : List α}
  {I : List α → Prop} {H : Option TokenKind → Prop} {R : List γ → β → Prop}

/-- A round for each item, and one that stops behind the last. -/
theorem Continues.rows (taken : ∀ x ∈ xs, row x ≠ [])
    (between : ∀ x ∈ xs, ∀ ws o, H (first (row x ++ ws) o)) (behind : ∀ o, F o → H (first fin o))
    (more : ∀ x ∈ xs, ∀ found, I found → Takes (row x) H (fits x) (step found) fun round =>
      ∃ b, round = .more b ∧ ∃ a, view a = view x ∧ b = a :: found)
    (stop : ∀ found, Takes fin F True (step found) fun round =>
      ∃ b, round = .stop b ∧ R (found.reverse.map view) b)
    (keep : ∀ a found, I (a :: found)) (found : List α) (start : I found) :
    Continues step found (xs.flatMap row ++ fin) F (∀ x ∈ xs, fits x)
      (R (found.reverse.map view ++ xs.map view)) := by
  induction xs generalizing found with
  | nil =>
    rw [List.map_nil, List.append_nil]
    exact (Continues.stop (stop found)).of_iff (by simp)
  | cons x xs ih =>
    rw [List.flatMap_cons, List.append_assoc]
    refine (Continues.more (more x (by simp) found start) (taken x (by simp)) ?_ ?_).of_iff
      List.forall_mem_cons.symm
    · intro o ho
      cases xs with
      | nil => exact behind o ho
      | cons y ys =>
        rw [List.flatMap_cons, List.append_assoc]
        exact between y (by simp) _ o
    · rintro _ ⟨a, same, rfl⟩
      have tail := ih (fun y hy => taken y (.tail _ hy)) (fun y hy => between y (.tail _ hy))
        (fun y hy => more y (.tail _ hy)) (a :: found) (keep a found)
      simpa [same] using tail

/-- A round for each item, the last of which stops. -/
theorem Continues.joined (write : List α → List TokenValue) (row last : α → List TokenValue)
    (one : ∀ x, write [x] = last x)
    (cons : ∀ x y ys, write (x :: y :: ys) = row x ++ write (y :: ys))
    (taken : ∀ x ∈ xs, row x ≠ []) (between : ∀ x ∈ xs, ∀ ys o, H (first (write (x :: ys)) o))
    (more : ∀ x ∈ xs, ∀ found, Takes (row x) H (fits x) (step found) fun round =>
      ∃ b, round = .more b ∧ ∃ a, view a = view x ∧ b = a :: found)
    (stop : ∀ x ∈ xs, ∀ found, Takes (last x) F (fits x) (step found) fun round =>
      ∃ b, round = .stop b ∧ ∃ a, view a = view x ∧ R ((a :: found).reverse.map view) b)
    (inhabited : xs ≠ []) (found : List α) :
    Continues step found (write xs) F (∀ x ∈ xs, fits x)
      (R (found.reverse.map view ++ xs.map view)) := by
  induction xs generalizing found with
  | nil => exact absurd rfl inhabited
  | cons x xs ih =>
    cases xs with
    | nil =>
      rw [one]
      refine (Continues.stop ((stop x (by simp) found).imp ?_)).of_iff (by simp)
      rintro _ ⟨b, rfl, a, same, hb⟩
      exact ⟨b, rfl, by simpa [same] using hb⟩
    | cons y ys =>
      rw [cons]
      refine (Continues.more (more x (by simp) found) (taken x (by simp)) ?_ ?_).of_iff
        List.forall_mem_cons.symm
      · exact fun o _ => between y (by simp) ys o
      · rintro _ ⟨a, same, rfl⟩
        have tail := ih (fun z hz => taken z (.tail _ hz))
          (fun z hz => between z (.tail _ hz)) (fun z hz => more z (.tail _ hz))
          (fun z hz => stop z (.tail _ hz)) (List.cons_ne_nil y ys) (a :: found)
        simpa [same] using tail

/-- What stands behind an item between commas, up to a closing parenthesis. -/
def Separates (o : Option TokenKind) : Prop :=
  o = some (.symbol .comma) ∨ o = some (.symbol .parenRight)

/-- Items between commas, up to a closing parenthesis. -/
theorem takes_commaSeparated {item : Reader α} {spell : α → List TokenValue}
    (begins : ∀ x ∈ xs, ∀ ws o, ∃ k, first (spell x ++ ws) o = some k ∧ k ≠ .symbol .parenRight)
    (h : ∀ x ∈ xs, Takes (spell x) Separates (fits x) item fun a => view a = view x) :
    Takes (separated (xs.map spell) ++ [.symbol .parenRight]) F (∀ x ∈ xs, fits x)
      (commaSeparated item) fun r => r.1.map view = xs.map view := by
  have item_more (x : α) (hx : x ∈ xs) (found : List α) :=
    (h x hx).bind_pure (R := fun round : Round (List α) (List α × Token) =>
      ∃ b, round = .more b ∧ ∃ a, view a = view x ∧ b = a :: found)
      fun a ha => ⟨a :: found, rfl, a, ha, rfl⟩
  refine Continues.repeating ?_
  cases xs with
  | nil =>
    refine Continues.of_iff (p := True) (.stop ?_) (by simp)
    exact .kind?_some rfl fun paren => takes_pure ⟨([], paren), rfl, rfl⟩
  | cons x xs =>
    rw [List.map_cons, separated, List.append_assoc, List.flatMap_map]
    refine (Continues.more (.kind?_none ?_ (item_more x (by simp) [])) ?_ ?_ ?_).of_iff
      List.forall_mem_cons.symm
    · intro o _
      simpa using begins x (by simp) [] o
    · intro empty
      obtain ⟨k, seen, ne⟩ := begins x (by simp) [.symbol .parenRight] none
      rw [empty] at seen
      exact ne (Option.some.inj seen).symm
    · intro o _
      cases xs
      · exact .inr rfl
      · exact .inl rfl
    · rintro _ ⟨a, same, rfl⟩
      rw [List.map_cons, ← same]
      refine Continues.rows (R := fun views (r : List α × Token) => r.1.map view = views)
        (I := (· ≠ [])) (H := Separates) (fun y _ => List.cons_ne_nil _ _) (fun _ _ _ _ => .inl rfl)
        (fun _ _ => .inr rfl) ?_ ?_ (fun _ _ => List.cons_ne_nil _ _) [a] (List.cons_ne_nil _ _)
      · intro y hy found nonempty
        refine .kind?_other (by decide) ?_
        have go : (!found.isEmpty) = true := by simpa using nonempty
        rw [if_pos go]
        exact .symbol fun _ => item_more y (.tail _ hy) found
      · exact fun found => .kind?_some rfl fun paren =>
          takes_pure ⟨(found.reverse, paren), rfl, rfl⟩

end Lists

end Cool.Reader
