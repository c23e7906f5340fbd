import Cool.Proofs.Lowering.Functions
import Mathlib.Data.List.Infix

/-!
Which functions of a program are called alike. The name of a function is that of its class and that
of the member with two underscores between them. Identifiers may have such underscores themselves,
and a method may be called like a constructor.
-/
namespace Cool

def separator : Bytes := ascii "__"

theorem separator_eq : separator = [byte '_', byte '_'] := by decide

/-- Where two names joined by the separator are the same, they are joined from the same parts, or
the longer of the first parts ends in a piece that the second part with it begins with. -/
theorem joined_eq {a b m n : Bytes} (hm : IsIdentifier m) (hn : IsIdentifier n)
    (h : a ++ separator ++ m = b ++ separator ++ n) : a = b ∧ m = n ∨
      (∃ k, b = a ++ separator ++ k ∧ m = k ++ separator ++ n) ∨
      ∃ k, a = b ++ separator ++ k ∧ n = k ++ separator ++ m := by
  have nested {a b m n x : Bytes} (hm : IsIdentifier m) (hb : b = a ++ x)
      (hx : separator ++ m = x ++ (separator ++ n)) :
      a = b ∧ m = n ∨ ∃ k, b = a ++ separator ++ k ∧ m = k ++ separator ++ n := by
    rw [separator_eq] at hx ⊢
    match x with
    | [] => exact .inl ⟨by simpa using hb.symm, List.append_cancel_left hx⟩
    | [_] =>
      simp only [List.cons_append, List.nil_append, List.cons.injEq] at hx
      rw [hx.2.2] at hm
      have letter : isLetter (byte '_') = true := hm.2
      exact absurd letter (by decide)
    | y :: z :: k =>
      simp only [List.cons_append, List.nil_append, List.cons.injEq] at hx ⊢
      obtain ⟨rfl, rfl, hx⟩ := hx
      exact .inr ⟨k, by simpa using hb, by simpa using hx⟩
  rw [List.append_assoc, List.append_assoc] at h
  rcases List.append_eq_append_iff.mp h with ⟨x, hb, hx⟩ | ⟨x, ha, hx⟩
  · exact (nested hm hb hx).imp_right .inl
  · exact (nested hn ha hx).imp (fun same => ⟨same.1.symm, same.2.symm⟩) .inr

section Members

variable {e : Entry}

/-- The name of a member's function before it is written as text. -/
def Member.joined (b : Member) : Bytes := b.owner.name.text ++ separator ++ b.label

theorem ClassName.display_ofBytes (name : Bytes) : (ofBytes name).display = Utf8.lossy name := by
  unfold ofBytes
  split_ifs with h h h h h h <;> first | rfl | (subst h; decide)

theorem ClassName.bytes_ofBytes (name : Bytes) : (ofBytes name).bytes = name := by
  unfold ofBytes
  split_ifs with h h h h h h <;> first | rfl | exact h.symm

theorem isIdentifier_constructor : IsIdentifier (ascii "constructor") := by decide

theorem isWord_separator : IsWord separator := by decide

theorem Member.label_isIdentifier {b : Member} (named : b.owner.Named) (declared : b.Declared) :
    IsIdentifier b.label := by
  cases b with
  | constructor c => exact isIdentifier_constructor
  | method c m => exact named.method declared

theorem Member.isWord_joined {b : Member} (named : b.owner.Named) (declared : b.Declared) :
    IsWord b.joined :=
  (named.1.1.append isWord_separator).append (label_isIdentifier named declared).1

theorem Member.functionName_of_not_isEntry {b : Member} (named : b.owner.Named)
    (declared : b.Declared) (h : ¬ b.IsEntry e) : b.functionName e = Utf8.lossy b.joined := by
  have label := label_isIdentifier named declared
  unfold functionName joined
  rw [if_neg h, (named.1.1.append isWord_separator).lossy_append label.1,
    named.1.1.lossy_append isWord_separator]
  unfold ClassName.memberName ClassDecl.className TypeName.className
  rw [ClassName.display_ofBytes]
  rfl

theorem Member.functionName_ne_entryName {b : Member} (named : b.owner.Named)
    (declared : b.Declared) (h : ¬ b.IsEntry e) : b.functionName e ≠ entryName := by
  intro same
  rw [functionName_of_not_isEntry named declared h] at same
  have isMain : b.joined = ascii "main" :=
    (isWord_joined named declared).lossy_inj (by decide) same
  have apart : ¬ separator <:+: ascii "main" := by decide
  exact apart (isMain ▸ List.infix_append _ _ _)

/-- No class has the name of a built-in one, and no name of a member has the separator in it, so no
member is called like the built-in method. -/
theorem Member.functionName_not_builtin {b : Member} (named : b.owner.Named)
    (declared : b.Declared) (notBuiltin : b.owner.className.isBuiltin = false) :
    b.functionName e ∉ builtinFunctions.map (·.name) := by
  intro mem
  have same : b.functionName e = Utf8.lossy (ascii "IO" ++ separator ++ ascii "out_int") := by
    rw [List.mem_singleton.mp mem]
    decide
  by_cases entry : b.IsEntry e
  · rw [functionName, if_pos entry] at same
    exact absurd same (by decide)
  rw [functionName_of_not_isEntry named declared entry] at same
  have joined := (isWord_joined named declared).lossy_inj (by decide) same
  have label := label_isIdentifier named declared
  have outInt : IsIdentifier (ascii "out_int") := by decide
  rcases joined_eq label outInt joined with ⟨isIO, _⟩ | ⟨k, isIO, _⟩ | ⟨k, _, isOutInt⟩
  · rw [ClassDecl.className, TypeName.className, isIO] at notBuiltin
    exact absurd notBuiltin (by decide)
  · have apart : ¬ separator <:+: ascii "IO" := by decide
    exact apart (isIO ▸ List.infix_append _ _ _)
  · have apart : ¬ separator <:+: ascii "out_int" := by decide
    exact apart (isOutInt ▸ List.infix_append _ _ _)

end Members

/-- Whether two members that the program does not start with get functions of one name: a method is
called like a constructor, or it begins with the rest of the name of a class whose member it ends
in. -/
inductive Clash (e : Entry) (classes : List ClassDecl) : Prop where
  | constructor {c m} : c ∈ classes → m ∈ c.methods → ¬ (Member.method c m).IsEntry e →
      m.name.text = ascii "constructor" → Clash e classes
  | nested {c m k} {b : Member} : c ∈ classes → m ∈ c.methods →
      ¬ (Member.method c m).IsEntry e → b.owner ∈ classes → b.Declared → ¬ b.IsEntry e →
      b.owner.name.text = c.name.text ++ separator ++ k → m.name.text = k ++ separator ++ b.label →
      Clash e classes

section Program

variable {files : SourceFiles} {classes : List ClassDecl} {t : ClassTable} {e : Entry}

theorem nodup_classes (h : Accepted files classes t) : classes.Nodup := by
  have distinct := h.outlines.distinct
  rw [ClassTable.outlinesOf, List.map_append, List.map_map] at distinct
  exact (List.nodup_append.mp distinct).2.1.of_map

theorem nodup_methods (h : Accepted files classes t) {c : ClassDecl} (hc : c ∈ classes) :
    c.methods.Nodup := by
  have distinct := h.outlines.methods c hc
  rw [ClassDecl.signatures, List.map_map] at distinct
  exact distinct.of_map

theorem nodup_membersOf (h : Accepted files classes t) : (membersOf t classes).Nodup := by
  have perm : (t.hierarchyOrder classes).Perm classes := List.mergeSort_perm classes _
  refine List.nodup_flatMap.mpr ⟨fun c hc => ?_, ?_⟩
  · refine List.nodup_cons.mpr ⟨by simp, ?_⟩
    refine (List.nodup_map_iff_inj_on (nodup_methods h (perm.mem_iff.mp hc))).mpr ?_
    exact fun _ _ _ _ same => (Member.method.inj same).2
  · refine (perm.nodup_iff.mpr (nodup_classes h)).imp fun {c d} apart b hb hb' => apart ?_
    have owner {c : ClassDecl} (hb : b ∈ c.members) : b.owner = c := by
      rcases List.mem_cons.mp hb with rfl | hb
      · rfl
      · obtain ⟨m, _, rfl⟩ := List.mem_map.mp hb
        rfl
    exact (owner hb).symm.trans (owner hb')

theorem eq_of_isEntry (h : Accepted files classes t) {b d : Member} (hb : b ∈ membersOf t classes)
    (hd : d ∈ membersOf t classes) (be : b.IsEntry e) (de : d.IsEntry e) : b = d := by
  cases b with
  | constructor => exact be.elim
  | method c m =>
    cases d with
    | constructor => exact de.elim
    | method d n =>
      obtain ⟨hc, hm⟩ := mem_membersOf.mp hb
      obtain ⟨hd, hn⟩ := mem_membersOf.mp hd
      have outlines := h.outlines
      have names : c.name.text = d.name.text := by
        have same := be.1.trans de.1.symm
        unfold ClassDecl.className TypeName.className at same
        rwa [ClassName.bytes_ofBytes, ClassName.bytes_ofBytes] at same
      obtain rfl : c = d := outlines.className_inj hc hd (congrArg ClassName.ofBytes names)
      obtain rfl : m = n := outlines.method_inj hc hm hn (be.2.trans de.2.symm)
      rfl

/-- Only a method has the separator in its name. -/
theorem Clash.of_joined {b d : Member} {k : Bytes} (hb : b.owner ∈ classes) (declared : b.Declared)
    (notEntry : ¬ b.IsEntry e) (hd : d.owner ∈ classes) (declared' : d.Declared)
    (notEntry' : ¬ d.IsEntry e) (owner : d.owner.name.text = b.owner.name.text ++ separator ++ k)
    (label : b.label = k ++ separator ++ d.label) : Clash e classes := by
  cases b with
  | constructor c =>
    have apart : ¬ separator <:+: ascii "constructor" := by decide
    exact absurd ⟨k, d.label, label.symm⟩ apart
  | method c m => exact .nested hb declared notEntry hd declared' notEntry' owner label

theorem Member.functionName_eq (h : Accepted files classes t) {b d : Member} {k : Bytes}
    (hb : b.owner ∈ classes) (declared : b.Declared) (notEntry : ¬ b.IsEntry e)
    (hd : d.owner ∈ classes) (declared' : d.Declared) (notEntry' : ¬ d.IsEntry e)
    (owner : d.owner.name.text = b.owner.name.text ++ separator ++ k)
    (label : b.label = k ++ separator ++ d.label) : b.functionName e = d.functionName e := by
  rw [functionName_of_not_isEntry (h.named hb) declared notEntry,
    functionName_of_not_isEntry (h.named hd) declared' notEntry']
  simp [joined, owner, label]

theorem eq_of_owner_of_label (h : Accepted files classes t) (calm : ¬ Clash e classes)
    {b d : Member} (hb : b ∈ membersOf t classes) (hd : d ∈ membersOf t classes)
    (be : ¬ b.IsEntry e) (de : ¬ d.IsEntry e) (owners : b.owner.name.text = d.owner.name.text)
    (labels : b.label = d.label) : b = d := by
  obtain ⟨knownB, declaredB⟩ := mem_membersOf.mp hb
  obtain ⟨knownD, declaredD⟩ := mem_membersOf.mp hd
  have outlines := h.outlines
  have same : b.owner = d.owner :=
    outlines.className_inj knownB knownD (congrArg ClassName.ofBytes owners)
  cases b with
  | constructor c =>
    cases d with
    | constructor d => exact congrArg Member.constructor same
    | method d n => exact (calm (.constructor knownD declaredD de labels.symm)).elim
  | method c m =>
    cases d with
    | constructor d => exact (calm (.constructor knownB declaredB be labels)).elim
    | method d n =>
      obtain rfl : c = d := same
      rw [outlines.method_inj knownB declaredB declaredD labels]

theorem functionName_inj (h : Accepted files classes t) (calm : ¬ Clash e classes) {b d : Member}
    (hb : b ∈ membersOf t classes) (hd : d ∈ membersOf t classes)
    (same : b.functionName e = d.functionName e) : b = d := by
  obtain ⟨knownB, declaredB⟩ := mem_membersOf.mp hb
  obtain ⟨knownD, declaredD⟩ := mem_membersOf.mp hd
  have namedB := h.named knownB
  have namedD := h.named knownD
  by_cases be : b.IsEntry e
  · by_cases de : d.IsEntry e
    · exact eq_of_isEntry h hb hd be de
    · rw [Member.functionName.eq_def e b, if_pos be] at same
      exact absurd same.symm (Member.functionName_ne_entryName namedD declaredD de)
  by_cases de : d.IsEntry e
  · rw [Member.functionName.eq_def e d, if_pos de] at same
    exact absurd same (Member.functionName_ne_entryName namedB declaredB be)
  rw [Member.functionName_of_not_isEntry namedB declaredB be,
    Member.functionName_of_not_isEntry namedD declaredD de] at same
  have joined := (Member.isWord_joined namedB declaredB).lossy_inj
    (Member.isWord_joined namedD declaredD) same
  have labelB := Member.label_isIdentifier namedB declaredB
  have labelD := Member.label_isIdentifier namedD declaredD
  rcases joined_eq labelB labelD joined with
    ⟨owners, labels⟩ | ⟨k, owner, label⟩ | ⟨k, owner, label⟩
  · exact eq_of_owner_of_label h calm hb hd be de owners labels
  · exact (calm (.of_joined knownB declaredB be knownD declaredD de owner label)).elim
  · exact (calm (.of_joined knownD declaredD de knownB declaredB be owner label)).elim

/-- Of members that clash there are two whose functions are called alike. -/
theorem Clash.not_inj (h : Accepted files classes t) (clash : Clash e classes) :
    ∃ b ∈ membersOf t classes, ∃ d ∈ membersOf t classes,
      b.functionName e = d.functionName e ∧ b ≠ d := by
  cases clash with
  | @constructor c m hc hm notEntry named =>
    refine ⟨.method c m, mem_membersOf.mpr ⟨hc, hm⟩, .constructor c,
      mem_membersOf.mpr ⟨hc, trivial⟩, ?_, nofun⟩
    have notEntry' : ¬ (Member.constructor c).IsEntry e := id
    unfold Member.functionName
    rw [if_neg notEntry, if_neg notEntry']
    exact congrArg c.className.memberName named
  | @nested c m k b hc hm notEntry hb declared notEntry' owner label =>
    refine ⟨.method c m, mem_membersOf.mpr ⟨hc, hm⟩, b, mem_membersOf.mpr ⟨hb, declared⟩, ?_, ?_⟩
    · exact Member.functionName_eq h hc hm notEntry hb declared notEntry' owner label
    · rintro rfl
      have length := congrArg List.length (show c.name.text = _ from owner)
      simp [separator_eq] at length

variable {p : Bril.Program}

/-- The functions of a program are called differently if and only if no members clash. -/
theorem nodup_names_iff (h : Accepted files classes t) (made : generate t e classes = .ok p) :
    (p.functions.map (·.name)).Nodup ↔ ¬ Clash e classes := by
  rw [map_functionName made, List.nodup_append]
  have members : ((membersOf t classes).map (Member.functionName e)).Nodup ↔ ¬ Clash e classes := by
    rw [List.nodup_map_iff_inj_on (nodup_membersOf h)]
    constructor
    · intro inj clash
      obtain ⟨b, hb, d, hd, same, apart⟩ := clash.not_inj h
      exact apart (inj b hb d hd same)
    · exact fun calm b hb d hd same => functionName_inj h calm hb hd same
  rw [members]
  refine ⟨fun distinct => distinct.2.1, fun calm => ⟨by decide, calm, ?_⟩⟩
  rintro _ builtin _ member rfl
  obtain ⟨b, hb, same⟩ := List.mem_map.mp member
  obtain ⟨known, declared⟩ := mem_membersOf.mp hb
  exact Member.functionName_not_builtin (h.named known) declared (h.admits known).notBuiltin
    (same ▸ builtin)

theorem find?_of_nodup (distinct : (p.functions.map (·.name)).Nodup) {f : Bril.Function}
    (hf : f ∈ p.functions) : p.find? f.name = some f := by
  unfold Bril.Program.find?
  obtain ⟨before, after, heq⟩ := List.append_of_mem hf
  rw [heq, List.map_append, List.map_cons, List.nodup_append] at distinct
  refine List.find?_eq_some_iff_append.mpr ⟨by simp, before, after, heq, fun g hg => ?_⟩
  have apart := distinct.2.2 g.name (List.mem_map.mpr ⟨g, hg, rfl⟩) f.name List.mem_cons_self
  simpa using apart

/-- Whether the function of a method stands in front of the constructor of a class and is called like
it. -/
def ClassDecl.Shadowed (t : ClassTable) (e : Entry) (classes : List ClassDecl) (c : ClassDecl) :
    Prop :=
  ∃ before after, t.hierarchyOrder classes = before ++ c :: after ∧
    ∃ d ∈ before, ∃ m ∈ d.methods, ¬ (Member.method d m).IsEntry e ∧
      ∃ k, c.name.text = d.name.text ++ separator ++ k ∧
        m.name.text = k ++ separator ++ ascii "constructor"

theorem Clash.of_shadowed {c : ClassDecl} (h : c.Shadowed t e classes) : Clash e classes := by
  obtain ⟨before, after, order, d, hd, m, hm, notEntry, k, owner, label⟩ := h
  have perm : (t.hierarchyOrder classes).Perm classes := List.mergeSort_perm classes _
  rw [order] at perm
  exact .nested (b := .constructor c) (perm.subset (List.mem_append_left _ hd)) hm notEntry
    (perm.subset (List.mem_append_right _ List.mem_cons_self)) trivial id owner label

theorem Member.functionName_constructor (c : ClassDecl) :
    (constructor c).functionName e = c.className.constructorName := if_neg id

/-- What another class has under the name of a constructor is a method. -/
theorem Member.shadows (h : Accepted files classes t) {c : ClassDecl} (hc : c ∈ classes) {b : Member}
    (hb : b.owner ∈ classes) (declared : b.Declared) (other : b.owner ≠ c)
    (same : b.functionName e = c.className.constructorName) :
    ∃ d, ∃ m ∈ d.methods, b = .method d m ∧ ¬ b.IsEntry e ∧
      ∃ k, c.name.text = d.name.text ++ separator ++ k ∧
        m.name.text = k ++ separator ++ ascii "constructor" := by
  have named : (constructor c).owner.Named := h.named hc
  have notEntry : ¬ b.IsEntry e := by
    intro isEntry
    rw [functionName, if_pos isEntry, ← functionName_constructor (e := e)] at same
    exact functionName_ne_entryName named trivial id same.symm
  rw [← functionName_constructor (e := e), functionName_of_not_isEntry named trivial id,
    functionName_of_not_isEntry (h.named hb) declared notEntry] at same
  have joined := (isWord_joined (h.named hb) declared).lossy_inj (isWord_joined named trivial) same
  have apart : ¬ separator <:+: ascii "constructor" := by decide
  rcases joined_eq (label_isIdentifier (h.named hb) declared) isIdentifier_constructor joined with
    ⟨owners, -⟩ | ⟨k, owner, label⟩ | ⟨k, -, label⟩
  · exact absurd (h.outlines.className_inj hb hc (congrArg ClassName.ofBytes owners)) other
  · cases b with
    | constructor d => exact absurd ⟨k, _, label.symm⟩ apart
    | method d m => exact ⟨d, m, declared, rfl, notEntry, k, owner, label⟩
  · exact absurd ⟨k, _, label.symm⟩ apart

/-- A name finds the function of the first member that has it. -/
theorem find?_functionName (h : Accepted files classes t) (made : generate t e classes = .ok p)
    {b d : Member} (hb : b ∈ membersOf t classes)
    (first : (membersOf t classes).find? (·.functionName e = b.functionName e) = some d) :
    ∃ f, d.function t e = .ok f ∧ p.find? (b.functionName e) = some f := by
  obtain ⟨fs, members, functions⟩ := generate_functions made
  obtain ⟨known, declared⟩ := mem_membersOf.mp hb
  have notBuiltin :=
    Member.functionName_not_builtin (e := e) (h.named known) declared (h.admits known).notBuiltin
  have builtin : builtinFunctions.find? (·.name = b.functionName e) = none := by
    refine List.find?_eq_none.mpr fun f hf same => notBuiltin ?_
    exact List.mem_map.mpr ⟨f, hf, of_decide_eq_true same⟩
  unfold Bril.Program.find?
  rw [functions, List.find?_append, builtin, Option.none_or]
  clear functions hb known declared notBuiltin builtin
  generalize membersOf t classes = row at members first
  have each := mapM_eq_ok.mp members
  clear members
  induction each with
  | nil => cases first
  | @cons x f row fs hf _ ih =>
    have name := (Member.function_profile hf).1
    rw [List.find?_cons] at first ⊢
    rw [name]
    split at first
    · cases first
      exact ⟨f, hf, rfl⟩
    · exact ih first

/-- A member of a class in front that is called like a constructor is a method that shadows it. -/
theorem Member.shadows_of_front (h : Accepted files classes t) {c : ClassDecl}
    {before after : List ClassDecl} (order : t.hierarchyOrder classes = before ++ c :: after)
    {b : Member} (hb : b ∈ before.flatMap ClassDecl.members)
    (same : b.functionName e = c.className.constructorName) :
    c.Shadowed t e classes ∧ ∃ d ∈ classes, ∃ m ∈ d.methods, b = .method d m := by
  have perm : (t.hierarchyOrder classes).Perm classes := List.mergeSort_perm classes _
  have distinct := perm.nodup_iff.mpr (nodup_classes h)
  have known : before ++ c :: after ⊆ classes := order ▸ perm.subset
  obtain ⟨d, hd, mem⟩ := List.mem_flatMap.mp hb
  obtain ⟨rfl, declared⟩ := ClassDecl.mem_members.mp mem
  rw [order, List.nodup_append] at distinct
  have inside : b.owner ∈ classes := known (List.mem_append_left _ hd)
  obtain ⟨d, m, hm, rfl, notEntry, name⟩ :=
    shadows h (known (List.mem_append_right _ List.mem_cons_self)) inside declared
      (distinct.2.2 _ hd c List.mem_cons_self) same
  exact ⟨⟨before, after, order, d, hd, m, hm, notEntry, name⟩, d, inside, m, hm, rfl⟩

/-- The name of a constructor finds it if and only if it is not shadowed, and the function of a
method otherwise. -/
theorem find?_constructorName (h : Accepted files classes t) (made : generate t e classes = .ok p)
    {c : ClassDecl} (hc : c ∈ classes) {f : Bril.Function}
    (hf : (Member.constructor c).function t e = .ok f) :
    (¬ c.Shadowed t e classes → p.find? c.className.constructorName = some f) ∧
    (c.Shadowed t e classes → ∃ d ∈ classes, ∃ m ∈ d.methods, ∃ g,
      (Member.method d m).function t e = .ok g ∧
        p.find? c.className.constructorName = some g) := by
  have perm : (t.hierarchyOrder classes).Perm classes := List.mergeSort_perm classes _
  have known : Member.constructor c ∈ membersOf t classes := mem_membersOf.mpr ⟨hc, trivial⟩
  have named := Member.functionName_constructor (e := e) c
  have members {before after : List ClassDecl}
      (order : t.hierarchyOrder classes = before ++ c :: after) : membersOf t classes =
        before.flatMap ClassDecl.members ++ .constructor c ::
          (c.methods.map (.method c) ++ after.flatMap ClassDecl.members) := by
    rw [membersOf, order, List.flatMap_append, List.flatMap_cons]
    rfl
  have finds {d : Member} := find?_functionName (d := d) h made known
  rw [named] at finds
  constructor
  · intro calm
    obtain ⟨before, after, order⟩ := List.append_of_mem (perm.mem_iff.mpr hc)
    have none : (before.flatMap ClassDecl.members).find?
        (·.functionName e = c.className.constructorName) = none :=
      List.find?_eq_none.mpr fun b hb same =>
        calm (Member.shadows_of_front h order hb (of_decide_eq_true same)).1
    obtain ⟨g, hg, found⟩ := finds (d := .constructor c) (by
      rw [members order, List.find?_append, none, Option.none_or, List.find?_cons_of_pos]
      exact decide_eq_true named)
    cases hf.symm.trans hg
    exact found
  · rintro ⟨before, after, order, d, hd, m, hm, notEntry, k, owner, label⟩
    have inside : d ∈ classes := perm.subset (order ▸ List.mem_append_left _ hd)
    have front : Member.method d m ∈ before.flatMap ClassDecl.members :=
      List.mem_flatMap.mpr ⟨d, hd, ClassDecl.mem_members.mpr ⟨rfl, hm⟩⟩
    have same := Member.functionName_eq (b := .method d m) (d := .constructor c) h inside hm notEntry
      hc trivial id owner label
    rw [named] at same
    obtain ⟨b, first⟩ : ∃ b, (before.flatMap ClassDecl.members).find?
        (·.functionName e = c.className.constructorName) = some b :=
      Option.isSome_iff_exists.mp (List.find?_isSome.mpr ⟨_, front, decide_eq_true same⟩)
    obtain ⟨-, d, hd, m, hm, rfl⟩ := Member.shadows_of_front h order
      (List.mem_of_find?_eq_some first) (by simpa using List.find?_some first)
    obtain ⟨g, hg, found⟩ := finds (d := .method d m) (by
      rw [members order, List.find?_append, first, Option.some_or])
    exact ⟨d, hd, m, hm, g, hg, found⟩

/-- The functions of an accepted program are called differently if and only if no members clash, and
then the function of every member is found by its name. -/
theorem names_distinct_iff (h : Accepted files classes t) (made : generate t e classes = .ok p) :
    ((p.functions.map (·.name)).Nodup ↔ ¬ Clash e classes) ∧
      (¬ Clash e classes → ∀ b ∈ membersOf t classes, ∃ f, b.function t e = .ok f ∧
        p.find? (b.functionName e) = some f) := by
  refine ⟨nodup_names_iff h made, fun calm b hb => ?_⟩
  obtain ⟨f, hf, hbf⟩ := exists_function made hb
  refine ⟨f, hbf, ?_⟩
  rw [← (Member.function_profile hbf).1]
  exact find?_of_nodup ((nodup_names_iff h made).mpr calm) hf

end Program

/-- A program with a method that is called like the constructor of its class. -/
def reconstructed : SourceFiles := .ofLines [
  "class Main \x7b",
  "  x : Int;",
  "  constructor() : Int { x };",
  "  main() : Int { constructor() };",
  "\x7d;"]

theorem reconstructed_accepted :
    Accepted reconstructed (SourceFiles.classes reconstructed) (SourceFiles.table reconstructed) :=
  SourceFiles.accepted (by decide +kernel)

theorem reconstructed_generated :
    generate (SourceFiles.table reconstructed) .default (SourceFiles.classes reconstructed) =
      .ok (SourceFiles.code reconstructed .default) :=
  SourceFiles.generated (by decide +kernel)

theorem names_distinct_iff_reconstructed :
    Accepted reconstructed (SourceFiles.classes reconstructed) (SourceFiles.table reconstructed) ∧
    (((SourceFiles.code reconstructed .default).functions.map (·.name)).Nodup ↔
      ¬ Clash .default (SourceFiles.classes reconstructed)) :=
  ⟨reconstructed_accepted, (names_distinct_iff reconstructed_accepted reconstructed_generated).1⟩

theorem reconstructed_refutes :
    Accepted reconstructed (SourceFiles.classes reconstructed) (SourceFiles.table reconstructed) ∧
    generate (SourceFiles.table reconstructed) .default (SourceFiles.classes reconstructed) =
      .ok (SourceFiles.code reconstructed .default) ∧
    ¬ ((SourceFiles.code reconstructed .default).functions.map (·.name)).Nodup :=
  ⟨reconstructed_accepted, reconstructed_generated, by decide +kernel⟩

end Cool
