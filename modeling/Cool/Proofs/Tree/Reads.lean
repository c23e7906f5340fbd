import Cool.Proofs.Token.Ended
import Cool.Proofs.Tree.Spelling
import Cool.Tree.Reader

/-!
What readers do on a text that ends. `Decides` says that a reader comes to a result or to a fault of
the text, whatever stands behind the end, so that it never asks for an item that is not there.
`Reads` adds which tokens the result stands for. Both are closed under sequence and repetition.
-/
namespace Cool.Reader

variable {α β : Type} {items : List ScanItem}

theorem bind_of_ok {x : Reader α} {f : α → Reader β} {a : α} {rest : List ScanItem}
    (h : x items = .ok (a, rest)) : (x >>= f) items = f a rest := by
  simp [Bind.bind, StateT.bind, h, Except.bind]

theorem bind_of_error {x : Reader α} {f : α → Reader β} {e : ParseError}
    (h : x items = .error e) : (x >>= f) items = .error e := by
  simp [Bind.bind, StateT.bind, h, Except.bind]

def next : List ScanItem → Option TokenKind
  | .ok t :: _ => some t.kind
  | _ => none

@[simp] theorem next_cons (t : Token) (items : List ScanItem) :
    next (.ok t :: items) = some t.kind :=
  rfl

theorem next_append (h : items ≠ []) (more : List ScanItem) :
    next (items ++ more) = next items := by
  cases items with
  | nil => exact absurd rfl h
  | cons i items => cases i <;> rfl

theorem exists_of_next {k : TokenKind} (h : next items = some k) :
    ∃ t rest, items = .ok t :: rest ∧ t.kind = k := by
  match items, h with
  | .ok t :: rest, h => exact ⟨t, rest, rfl, Option.some.inj h⟩

theorem head?_eq (items : List ScanItem) : head? items = .ok (next items, items) := by
  match items with
  | [] => rfl
  | .ok _ :: _ => rfl
  | .error _ :: _ => rfl

theorem second?_eq (items : List ScanItem) : second? items = .ok (next items.tail, items) := by
  match items with
  | [] => rfl
  | [_] => rfl
  | _ :: .ok _ :: _ => rfl
  | _ :: .error _ :: _ => rfl

theorem kind_eq_symbol {t : Token} {s : Symbol} : t.kind = .symbol s ↔ t.value = .symbol s := by
  unfold Token.kind TokenValue.kind
  cases t.value <;> simp

/-! ## Rounds -/

section Rounds

variable {step : α → Reader (Round α β)} {a : α} {rest bound : List ScanItem}

theorem rounds_stop {b : β} (h : step a items = .ok (.stop b, rest)) :
    rounds step bound a items = .ok (b, rest) := by
  unfold rounds
  exact bind_of_ok h

theorem rounds_more {b : α} {i : ScanItem} (h : step a items = .ok (.more b, rest)) :
    rounds step (i :: bound) a items = rounds step bound b rest := by
  rw [rounds]
  exact bind_of_ok h

theorem rounds_error {e : ParseError} (h : step a items = .error e) :
    rounds step bound a items = .error e := by
  unfold rounds
  exact bind_of_error h

end Rounds

/-! ## Coming to a decision -/

/-- Whether a reader has a result on some items that satisfies `K`, or stops at a fault, where what
stands behind the items makes no difference. -/
def Decides (items : List ScanItem) (r : Reader α) (K : α → List ScanItem → Prop) : Prop :=
  (∃ a rest, K a rest ∧ ∀ more, r (items ++ more) = .ok (a, rest ++ more)) ∨
    ∃ e, e ≠ .cutShort ∧ ∀ more, r (items ++ more) = .error e

namespace Decides

variable {K L : α → List ScanItem → Prop} {r : Reader α}

theorem imp (h : Decides items r K) (hi : ∀ a rest, K a rest → L a rest) : Decides items r L := by
  rcases h with ⟨a, rest, ha, h⟩ | h
  · exact .inl ⟨a, rest, hi a rest ha, h⟩
  · exact .inr h

theorem congr {s : Reader α} (h : Decides items s K)
    (same : ∀ more, r (items ++ more) = s (items ++ more)) : Decides items r K := by
  rcases h with ⟨a, rest, ha, h⟩ | ⟨e, he, h⟩
  · exact .inl ⟨a, rest, ha, fun more => (same more).trans (h more)⟩
  · exact .inr ⟨e, he, fun more => (same more).trans (h more)⟩

theorem of_ok {a : α} {rest : List ScanItem} (h : Decides items r K)
    (ok : r items = .ok (a, rest)) : K a rest := by
  rcases h with ⟨a', rest', ha, h⟩ | ⟨e, _, h⟩
  · have here := h []
    rw [List.append_nil, List.append_nil, ok] at here
    cases here
    exact ha
  · have here := h []
    rw [List.append_nil, ok] at here
    cases here

theorem bind {f : α → Reader β} {M : β → List ScanItem → Prop} (h : Decides items r K)
    (hf : ∀ a rest, K a rest → Decides rest (f a) M) : Decides items (r >>= f) M := by
  rcases h with ⟨a, rest, ha, h⟩ | ⟨e, he, h⟩
  · rcases hf a rest ha with ⟨b, left, hb, hf⟩ | ⟨e, he, hf⟩
    · exact .inl ⟨b, left, hb, fun more => (bind_of_ok (h more)).trans (hf more)⟩
    · exact .inr ⟨e, he, fun more => (bind_of_ok (h more)).trans (hf more)⟩
  · exact .inr ⟨e, he, fun more => bind_of_error (h more)⟩

end Decides

section Repeating

variable {I : α → List ScanItem → Prop} {K : β → List ScanItem → Prop}
  {step : α → Reader (Round α β)} {a : α}
  (hs : ∀ a items, I a items → Decides items (step a) fun round rest =>
    match round with
    | .more b => I b rest ∧ rest.length < items.length
    | .stop b => K b rest)
include hs

/-- The rounds of a step that takes an item each time it goes on, with any bound that counts the
items; what stands behind the items adds no round. -/
theorem decides_rounds (ha : I a items) :
    (∃ b rest, K b rest ∧ ∀ more bound, items.length ≤ bound.length →
      rounds step bound a (items ++ more) = .ok (b, rest ++ more)) ∨
    ∃ e, e ≠ .cutShort ∧ ∀ more bound, items.length ≤ bound.length →
      rounds step bound a (items ++ more) = .error e := by
  induction hn : items.length using Nat.strongRecOn generalizing a items with | ind n ih =>
  subst hn
  rcases hs a items ha with ⟨round, rest, hr, h⟩ | ⟨e, he, h⟩
  · cases round with
    | stop b => exact .inl ⟨b, rest, hr, fun more bound _ => rounds_stop (h more)⟩
    | more b =>
      obtain ⟨hb, shorter⟩ := hr
      -- One item of the bound is used up, and at least one of those to read.
      have goes_on : ∀ more (bound : List ScanItem), items.length ≤ bound.length →
          ∃ bound' : List ScanItem, rest.length ≤ bound'.length ∧
            rounds step bound a (items ++ more) = rounds step bound' b (rest ++ more) := by
        intro more bound enough
        cases bound with
        | nil => simp only [List.length_nil] at enough; omega
        | cons i bound =>
          simp only [List.length_cons] at enough
          exact ⟨bound, by omega, rounds_more (h more)⟩
      rcases ih rest.length shorter hb rfl with ⟨c, left, hc, h⟩ | ⟨e, he, h⟩
      · refine .inl ⟨c, left, hc, fun more bound enough => ?_⟩
        obtain ⟨bound', enough', same⟩ := goes_on more bound enough
        exact same.trans (h more bound' enough')
      · refine .inr ⟨e, he, fun more bound enough => ?_⟩
        obtain ⟨bound', enough', same⟩ := goes_on more bound enough
        exact same.trans (h more bound' enough')
  · exact .inr ⟨e, he, fun more bound _ => rounds_error (h more)⟩

theorem decides_repeating (ha : I a items) : Decides items (repeating step a) K := by
  rcases decides_rounds hs ha with ⟨b, rest, hb, h⟩ | ⟨e, he, h⟩
  · exact .inl ⟨b, rest, hb, fun more => h more _ (by simp)⟩
  · exact .inr ⟨e, he, fun more => h more _ (by simp)⟩

end Repeating

/-- The end of the text is taken if it comes next. -/
theorem decides_eof (ended : Ended items) : Decides items (kind? .eof) fun o rest =>
    match o with
    | some t => items = [.ok t] ∧ t.value = .eof ∧ rest = []
    | none => rest = items := by
  cases ended with
  | fault e => exact .inr ⟨.lexical e, nofun, fun _ => rfl⟩
  | @eof t h =>
    refine .inl ⟨some t, [], ⟨rfl, h, rfl⟩, fun _ => ?_⟩
    simp [kind?, Token.kind, h, TokenValue.kind]
  | @token t rest h _ =>
    have other : t.kind ≠ .eof := by
      unfold Token.kind TokenValue.kind
      split <;> simp_all
    exact .inl ⟨none, _, rfl, fun _ => by simp [kind?, other]⟩

/-! ## Reading tokens -/

/-- Whether a reader decides on items that end, and does so within them: `R` holds of the tokens
that it takes, its result, and the items that it leaves. -/
def Reads (items : List ScanItem) (r : Reader α)
    (R : List Token → α → List ScanItem → Prop) : Prop :=
  Ended items → Decides items r fun a rest =>
    Ended rest ∧ ∃ ts : List Token, items = ts.map .ok ++ rest ∧ R ts a rest

section Reads

variable {R S : List Token → α → List ScanItem → Prop} {Q : List Token → β → List ScanItem → Prop}

theorem reads_pure {a : α} (h : R [] a items) : Reads items (pure a) R :=
  fun ended => .inl ⟨a, items, ⟨ended, [], rfl, h⟩, fun _ => rfl⟩

theorem reads_fail {e : ParseError} (h : e ≠ .cutShort) : Reads items (fail e) R :=
  fun _ => .inr ⟨e, h, fun _ => rfl⟩

namespace Reads

variable {r : Reader α}

theorem imp (h : Reads items r R) (hi : ∀ ts a rest, R ts a rest → S ts a rest) :
    Reads items r S := by
  refine fun ended => (h ended).imp fun a rest ⟨left, ts, whole, hr⟩ => ?_
  exact ⟨left, ts, whole, hi ts a rest hr⟩

theorem bind {f : α → Reader β} (h : Reads items r R)
    (hf : ∀ ts a rest, R ts a rest → Reads rest (f a) fun us => Q (ts ++ us)) :
    Reads items (r >>= f) Q := by
  refine fun ended => (h ended).bind fun a rest ⟨left, ts, whole, hr⟩ => ?_
  refine (hf ts a rest hr left).imp fun b rest ⟨left, us, behind, hq⟩ => ?_
  exact ⟨left, ts ++ us, by simp [whole, behind], hq⟩

theorem map {f : α → β} (h : Reads items r R) (hf : ∀ ts a rest, R ts a rest → Q ts (f a) rest) :
    Reads items (f <$> r) Q := by
  rw [map_eq_pure_bind]
  refine h.bind fun ts a rest hr => reads_pure ?_
  rw [List.append_nil]
  exact hf ts a rest hr

end Reads

theorem reads_expected (kinds : List TokenKind) : Reads items (expected kinds) R := by
  intro ended
  cases ended with
  | fault e => exact .inr ⟨.lexical e, nofun, fun _ => rfl⟩
  | eof => exact .inr ⟨.unexpected kinds _, nofun, fun _ => rfl⟩
  | token => exact .inr ⟨.unexpected kinds _, nofun, fun _ => rfl⟩

theorem reads_oneOf (kinds : List TokenKind) (inside : .eof ∉ kinds) :
    Reads items (oneOf kinds) fun ts t _ => ts = [t] ∧ t.kind ∈ kinds := by
  intro ended
  match items, ended with
  | .error e :: _, _ => exact .inr ⟨.lexical e, nofun, fun _ => rfl⟩
  | .ok t :: rest, ended =>
    by_cases ht : t.kind ∈ kinds
    · have before : t.value ≠ .eof := fun last =>
        inside (by rwa [Token.kind, last] at ht)
      refine .inl ⟨t, rest, ⟨ended.tail before, [t], rfl, rfl, ht⟩, fun more => ?_⟩
      simp [oneOf, ht]
    · exact .inr ⟨.unexpected kinds t, nofun, fun more => by simp [oneOf, ht]⟩

theorem Reads.symbol {s : Symbol} {f : Token → Reader β}
    (hf : ∀ t rest, t.value = .symbol s → Reads rest (f t) fun us => Q (t :: us)) :
    Reads items (symbol s >>= f) Q := by
  refine (reads_oneOf _ (by simp)).bind ?_
  rintro _ t rest ⟨rfl, ht⟩
  exact hf t rest (kind_eq_symbol.mp (List.mem_singleton.mp ht))

theorem Reads.symbol? {s : Symbol} {f : Option Token → Reader β}
    (found : ∀ t rest, t.value = .symbol s → next items = some (.symbol s) →
      Reads rest (f (some t)) fun us => Q (t :: us))
    (absent : next items ≠ some (.symbol s) → Reads items (f none) Q) :
    Reads items (symbol? s >>= f) Q := by
  intro ended
  match items, ended with
  | .error e :: _, _ => exact .inr ⟨.lexical e, nofun, fun _ => rfl⟩
  | .ok t :: rest, ended =>
    by_cases ht : t.kind = .symbol s
    · have value := kind_eq_symbol.mp ht
      have run : ∀ more, Reader.symbol? s (.ok t :: rest ++ more) = .ok (some t, rest ++ more) :=
        fun more => by simp [Reader.symbol?, kind?, ht]
      have taken : Decides (.ok t :: rest) (Reader.symbol? s) fun o left =>
          o = some t ∧ left = rest :=
        .inl ⟨_, _, ⟨rfl, rfl⟩, run⟩
      refine taken.bind ?_
      rintro _ _ ⟨rfl, rfl⟩
      refine (found t _ value (by rw [next_cons, ht]) (ended.tail (by simp [value]))).imp ?_
      rintro b left ⟨left_ended, us, rfl, hq⟩
      exact ⟨left_ended, t :: us, rfl, hq⟩
    · have run : ∀ more, Reader.symbol? s (.ok t :: rest ++ more) =
          .ok (none, .ok t :: rest ++ more) :=
        fun more => by simp [Reader.symbol?, kind?, ht]
      have kept : Decides (.ok t :: rest) (Reader.symbol? s) fun o left =>
          o = none ∧ left = .ok t :: rest :=
        .inl ⟨_, _, ⟨rfl, rfl⟩, run⟩
      refine kept.bind ?_
      rintro _ _ ⟨rfl, rfl⟩
      exact absent (by simpa using ht) ended

theorem Reads.head? {f : Option TokenKind → Reader β} (h : Reads items (f (next items)) Q) :
    Reads items (head? >>= f) Q := by
  intro ended
  have run : ∀ more, Reader.head? (items ++ more) = .ok (next items, items ++ more) :=
    fun more => by rw [head?_eq, next_append ended.ne_nil]
  have seen : Decides items Reader.head? fun k left => k = next items ∧ left = items :=
    .inl ⟨_, _, ⟨rfl, rfl⟩, run⟩
  refine seen.bind ?_
  rintro _ _ ⟨rfl, rfl⟩
  exact h ended

/-- Behind a token that is not the end of the text stands another item. -/
theorem Reads.second? {k : TokenKind} {f : Option TokenKind → Reader β}
    (first : next items = some k) (inside : k ≠ .eof) (h : Reads items (f (next items.tail)) Q) :
    Reads items (second? >>= f) Q := by
  intro ended
  obtain ⟨t, rest, rfl, ht⟩ := exists_of_next first
  have behind : rest ≠ [] := by
    refine (ended.tail fun last => inside ?_).ne_nil
    rw [← ht, Token.kind, last]
    rfl
  have run : ∀ more, Reader.second? (.ok t :: rest ++ more) =
      .ok (next rest, .ok t :: rest ++ more) := fun more => by
    rw [second?_eq, List.cons_append, List.tail_cons, next_append behind]
  have seen : Decides (.ok t :: rest) Reader.second? fun k left =>
      k = next rest ∧ left = .ok t :: rest :=
    .inl ⟨_, _, ⟨rfl, rfl⟩, run⟩
  refine seen.bind ?_
  rintro _ _ ⟨rfl, rfl⟩
  exact h ended

theorem Reads.here {f : Position → Reader β} (h : ∀ p, Reads items (f p) Q) :
    Reads items (here >>= f) Q := by
  intro ended
  have seen : Decides items Reader.here fun _ left => left = items := by
    match items, ended with
    | .error e :: rest, _ => exact .inl ⟨_, _, rfl, fun _ => rfl⟩
    | .ok t :: rest, _ => exact .inl ⟨_, _, rfl, fun _ => rfl⟩
  refine seen.bind ?_
  rintro p _ rfl
  exact h p ended

/-- What a round has to do: take a token and keep `I` if it goes on, and bring about `Q` if it
stops. Both are about all tokens since the first round. -/
@[reducible] def Round.Reads (I : List Token → α → List ScanItem → Prop)
    (Q : List Token → β → List ScanItem → Prop) (before : List Token) (ts : List Token) :
    Round α β → List ScanItem → Prop
  | .more a, rest => ts ≠ [] ∧ I (before ++ ts) a rest
  | .stop b, rest => Q (before ++ ts) b rest

/-- Rounds behind tokens that `I` takes into account from the start. -/
theorem reads_repeating_behind {I : List Token → α → List ScanItem → Prop}
    {step : α → Reader (Round α β)} {a : α} {front : List Token} (start : I front a items)
    (hs : ∀ before a rest, I before a rest → Reads rest (step a) (Round.Reads I Q before)) :
    Reads items (repeating step a) fun ts => Q (front ++ ts) := by
  intro ended
  have round : ∀ a rest,
      (Ended rest ∧ ∃ ts : List Token, items = ts.map .ok ++ rest ∧ I (front ++ ts) a rest) →
      Decides rest (step a) fun round left =>
        match round with
        | .more b => (Ended left ∧ ∃ ts : List Token, items = ts.map .ok ++ left ∧
            I (front ++ ts) b left) ∧ left.length < rest.length
        | .stop b => Ended left ∧ ∃ ts : List Token, items = ts.map .ok ++ left ∧
            Q (front ++ ts) b left := by
    rintro a rest ⟨rest_ended, before, whole, ha⟩
    refine (hs _ a rest ha rest_ended).imp ?_
    rintro round left ⟨left_ended, ts, rfl, hr⟩
    have both : items = (before ++ ts).map .ok ++ left := by simp [whole]
    cases round with
    | stop b => exact ⟨left_ended, _, both, List.append_assoc .. ▸ hr⟩
    | more b =>
      have taken := List.length_pos_iff.mpr hr.1
      refine ⟨⟨left_ended, _, both, List.append_assoc .. ▸ hr.2⟩, ?_⟩
      simp only [List.length_append, List.length_map]
      omega
  exact decides_repeating round ⟨ended, [], rfl, by simpa using start⟩

theorem reads_repeating {I : List Token → α → List ScanItem → Prop} {step : α → Reader (Round α β)}
    {a : α} (start : I [] a items)
    (hs : ∀ before a rest, I before a rest → Reads rest (step a) (Round.Reads I Q before)) :
    Reads items (repeating step a) Q :=
  reads_repeating_behind start hs

end Reads

/-- Items between commas, as they are written. -/
theorem reads_commaSeparated {item : Reader α} {spell : α → List TokenValue} {P : α → Prop}
    (inhabited : ∀ a, spell a ≠ [])
    (h : ∀ {items}, Reads items item fun ts a _ => ts.map Token.value = spell a ∧ P a) :
    Reads items (commaSeparated item) fun ts r _ =>
      ts.map Token.value = separated (r.1.map spell) ++ [TokenValue.symbol .parenRight] ∧
        ∀ a ∈ r.1, P a := by
  refine reads_repeating (I := fun ts found _ =>
    ts.map Token.value = separated (found.reverse.map spell) ∧ ∀ a ∈ found, P a)
    (by simp [separated]) ?_
  rintro before found rest ⟨spelt, holds⟩
  refine .symbol? (fun paren _ hp _ => reads_pure ?_) fun _ => ?_
  · exact ⟨by simp [spelt, hp], by simpa using holds⟩
  · dsimp only
    split
    · rename_i nonempty
      refine .symbol fun comma _ hc => h.bind fun ts x _ hx => reads_pure ⟨by simp, ?_⟩
      refine ⟨?_, List.forall_mem_cons.mpr ⟨hx.2, holds⟩⟩
      have others : found.reverse.map spell ≠ [] := by simpa using nonempty
      have written := separated_concat others (spell x)
      simp_all
    · rename_i empty
      refine h.bind fun ts x _ hx => reads_pure ⟨?_, ?_, List.forall_mem_cons.mpr ⟨hx.2, holds⟩⟩
      · intro untaken
        refine inhabited x ?_
        rw [← hx.1, List.append_eq_nil_iff.mp untaken |>.1]
        rfl
      · have empty : found = [] := by simpa using empty
        subst empty
        simp_all [separated]

end Cool.Reader
