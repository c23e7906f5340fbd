import Cool.Proofs.Lowering.RegisterTypes

/-!
Expressions get code that is right for some kinds of its registers, where calls are those of the
methods that the checker found, and pass what these methods take.
-/
namespace Cool

open LowerEnv
open Bril (Instr Kind)
open FunctionState (tempName Keeps Extends)
open Relation (ReflTransGen)

structure Calm (env : LowerEnv) (site : Site) : Prop where
  directed : ¬ Misdirected env site
  passes : ∀ {method d args owner m}, (env.typing site.locals).Calls site.expr method d args →
    env.table.findMethod? d method.text = some (owner, m) →
    env.Passes site.locals owner args m.params

abbrev AllCalm (env : LowerEnv) := Throughout (Calm env) env

namespace Setting.Fair

variable {w : Setting} (fair : w.Fair) {hidden : List Bytes} {s t u : FunctionState}
  {L : Scopes ClassName} {e receiver : Expr} {es args : List Expr} {bs : List (Binding Expr)}
  {name method : Name} {type : TypeName} {span : Span} {v x y : Lowered} {xs : List Lowered}
  {code : List Instr} {owner : ClassName} {m : MethodType} {i : Nat}

include fair

theorem settled_assignLocal {b : Local} (here : AllCalm w.env hidden ⟨L, s, .assign name e span⟩)
    (hv : Lowers w.env s e v t) (found : t.find? name.text = some b) (value : w.Settled s t L e v) :
    w.Settled s t L (.assign name e span)
      ⟨v.code ++ [.compute .id b.reg b.type.ty [v.dest]], b.reg, v.type⟩ := by
  obtain ⟨T, hT⟩ := here.typed
  obtain ⟨type, _, U, hU, assignable⟩ := hT.assign
  have inner := here.child .value
  have same := type_of_local (inner.agree.keeps (hv.keeps inner.wellFormed)) type found
  refine value.imp fun m knows ⟨code, placed⟩ => ?_
  have value := (placed.fits U hU).under (fair.outlines.under_conforms fair.kept assignable)
  have here := same ▸ knows.locals found
  rw [right_append, right_cons]
  refine ⟨⟨code, .copy ?_, right_nil⟩, fun T' hT' => ?_, nofun⟩
  · rw [here]
    exact value
  · cases hT'.symm.trans hT
    exact .of_eq here

theorem settled_assignAttribute {c : ClassName}
    (shown : ∀ n ∈ hidden, w.env.table.slot? w.env.self n = none)
    (here : AllCalm w.env hidden ⟨L, s, .assign name e span⟩) (hv : Lowers w.env s e v t)
    (absent : t.find? name.text = none)
    (slot : w.env.table.slot? w.env.self name.text = some (i, c)) (value : w.Settled s t L e v) :
    w.Settled s (t.skip 2) L (.assign name e span)
      ⟨v.code ++ addressCode t.next i ++ [.perform .store [tempName (t.next + 1), v.dest]],
        v.dest, v.type⟩ := by
  obtain ⟨T, hT⟩ := here.typed
  obtain ⟨type, _, U, hU, assignable⟩ := hT.assign
  have inner := here.child .value
  have same := type_of_slot fair.regular (inner.agree.keeps (hv.keeps inner.wellFormed)) shown type
    absent slot
  refine (value.bind (fair.address t i)).imp ?_
  rintro m _ ⟨⟨code, placed⟩, address, target⟩
  have value := (placed.fits U hU).under (fair.outlines.under_conforms fair.kept assignable)
  rw [right_append, right_append, right_cons]
  refine ⟨⟨⟨code, address⟩, .store target (layout_slot slot) ?_, right_nil⟩, fun T' hT' => ?_,
    nofun⟩
  · rw [same]
    exact value
  · cases hT'.symm.trans hT
    exact value

theorem settled_selfCall (here : AllCalm w.env hidden ⟨L, s, .selfCall method args span⟩)
    (found : w.env.table.findMethod? w.env.self method.text = some (owner, m))
    (code : HasCode owner method.text) (rest : w.SettledAll s t L args xs) :
    w.Settled s (t.skip 1) L (.selfCall method args span) (LowerEnv.called t.next owner method.text
      (Env.resultOf w.env.self m.result) (w.env.receiver :: xs)) := by
  obtain ⟨T, hT⟩ := here.typed
  have passes := (here.within _ .refl).passes .selfCall found
  refine fair.called found code (U := .selfType) (fair.outlines.findMethod?_eq_some found).1
    (rest.imp fun m knows ⟨codes, placed⟩ =>
      ⟨codes, fair.fits_self knows, fun _ _ => knows.self, fair.passed placed ?_ passes⟩) ?_ ?_
  · obtain ⟨_, _, _, fitting, _⟩ := hT.selfCall
    exact fitting.typed
  · intro T' hT'
    obtain ⟨_, _, found', _, rfl⟩ := hT'.selfCall
    cases found.symm.trans found'
    rfl
  · rintro (_ | ⟨found', result⟩)
    cases found.symm.trans found'
    exact ⟨result, rfl⟩

/-- Where a call is not misdirected, the method is the one that the arguments were checked for. -/
theorem settled_call (here : AllCalm w.env hidden ⟨L, s, .call receiver method args span⟩)
    (hr : Lowers w.env s receiver x t)
    (found : w.env.table.findMethod? x.type method.text = some (owner, m))
    (code : HasCode owner method.text) (first : w.Settled s t L receiver x)
    (rest : w.SettledAll t u L args xs) :
    w.Settled s (u.skip 1) L (.call receiver method args span)
      (LowerEnv.called u.next owner method.text (Env.resultOf x.type m.result) (x :: xs)) := by
  obtain ⟨_, hT⟩ := here.typed
  obtain ⟨U, hU, _, _, found', fitting, _⟩ := hT.call
  rw [findMethod?_of_not_misdirected (here.within _ .refl).directed hU hr] at found
  cases found.symm.trans found'
  have passes := (here.within _ .refl).passes (.call hU) found'
  refine fair.called found' code (fair.outlines.findMethod?_eq_some found').1
    (fair.operands first rest hU fitting.typed passes ?_) ?_ ?_
  · rintro (_ | _ | ⟨yields, _⟩)
    exact yields
  · intro T' hT'
    obtain ⟨U', hU', _, _, found'', _, rfl⟩ := hT'.call
    cases hU.symm.trans hU'
    cases found'.symm.trans found''
    rfl
  · rintro (_ | _ | ⟨yields, found'', result⟩)
    have isSelf := yields.type hU
    rw [← isSelf] at found''
    cases found'.symm.trans found''
    exact ⟨result, isSelf⟩

theorem settled_staticCall
    (here : AllCalm w.env hidden ⟨L, s, .staticCall receiver type method args span⟩)
    (found : w.env.table.findMethod? (type.className.resolve w.env.self) method.text =
      some (owner, m))
    (code : HasCode owner method.text) (first : w.Settled s t L receiver x)
    (rest : w.SettledAll t u L args xs) :
    w.Settled s (u.skip 1) L (.staticCall receiver type method args span)
      (LowerEnv.called u.next owner method.text (Env.resultOf x.type m.result) (x :: xs)) := by
  obtain ⟨_, hT⟩ := here.typed
  obtain ⟨U, hU, conforms, _, _, found', fitting, _⟩ := hT.staticCall
  cases found.symm.trans found'
  have passes := (here.within _ .refl).passes .staticCall found
  have inherits := fair.outlines.lineage_trans (ClassTable.conforms_iff.mp conforms)
    (fair.outlines.findMethod?_eq_some found).1
  refine fair.called found code inherits (fair.operands first rest hU fitting.typed passes ?_) ?_ ?_
  · rintro (_ | _ | _ | ⟨yields, _⟩)
    exact yields
  · intro T' hT'
    obtain ⟨U', hU', _, _, _, found'', _, rfl⟩ := hT'.staticCall
    cases hU.symm.trans hU'
    cases found.symm.trans found''
    rfl
  · rintro (_ | _ | _ | ⟨yields, found'', result⟩)
    cases found.symm.trans found''
    exact ⟨result, yields.type hU⟩

theorem settled_attribute {c : ClassName}
    (shown : ∀ n ∈ hidden, w.env.table.slot? w.env.self n = none)
    (here : AllCalm w.env hidden ⟨L, s, .name name⟩) (notSelf : name.isSelf = false)
    (absent : s.find? name.text = none)
    (slot : w.env.table.slot? w.env.self name.text = some (i, c)) :
    w.Settled s (s.skip 3) L (.name name)
      ⟨addressCode s.next i ++ [.compute .load (tempName (s.next + 2))
        (c.resolve w.env.self).ty [tempName (s.next + 1)]], tempName (s.next + 2),
        c.resolve w.env.self⟩ := by
  refine ((fair.address s i).bind
    (.temp (s.skip 2) (.value (c.resolve w.env.self).kind))).imp ?_
  rintro m _ ⟨⟨address, target⟩, dest⟩
  rw [right_append, right_cons]
  refine ⟨⟨address, .load target (layout_slot slot) (dest ▸ .refl _), right_nil⟩,
    fun T hT => ?_, fun yields => absurd (notSelf.symm.trans yields.isSelf) nofun⟩
  exact type_of_slot fair.regular here.agree shown (hT.typeOf? notSelf) absent slot ▸ .of_eq dest

theorem settles_init (word : IsWord name.text)
    (checked : (⟨name, type, some e, span⟩ : Binding Expr).Checked (w.env.typing L))
    (value : w.Settled s t L e v)
    (rest : Settles w.role.kinds (t.bind name.text (type.className.resolve w.env.self)).2 u
      fun m => w.Right m code) :
    Settles w.role.kinds s u fun m => w.Right m (v.code ++
      [.compute .id (t.bind name.text (type.className.resolve w.env.self)).1
        (type.className.resolve w.env.self).ty [v.dest]] ++ code) := by
  obtain ⟨U, hU, assignable⟩ := checked.init _ rfl
  refine (value.bind ((Settles.bound t word _).bind rest)).imp ?_
  rintro m _ ⟨⟨code, placed⟩, reg, rest⟩
  have value := (placed.fits U hU).under (fair.outlines.under_conforms fair.kept assignable)
  rw [right_append, right_append, right_cons]
  refine ⟨⟨code, .copy ?_, right_nil⟩, rest⟩
  rw [reg]
  exact value

end Setting.Fair

namespace Setting

variable {w : Setting} {s t u : FunctionState} {L : Scopes ClassName} {e left right : Expr}
  {es : List Expr} {bs : List (Binding Expr)} {span : Span} {x y : Lowered} {xs : List Lowered}
  {code : List Instr}

theorem settled_block (some_ : es ≠ []) (rows : w.SettledAll s.push t L.push es xs) :
    w.Settled s t.pop L (.block es span)
      ⟨xs.flatMap (·.code), (w.env.lastOf xs).dest, (w.env.lastOf xs).type⟩ := by
  refine rows.scope.imp fun m _ ⟨codes, placed⟩ => ⟨codes, fun T hT => ?_, fun yields => ?_⟩
  · obtain ⟨Ts, all, rfl⟩ := hT.block
    exact (forall₂_getLast? placed some_ (.name ⟨[], default⟩) _).fits _
      (forall₂_getLast? all some_ _ _)
  · cases yields with | @block before last _ yields =>
    have placedLast := forall₂_getLast? placed some_ last w.env.receiver
    rw [List.getLast?_concat] at placedLast
    exact placedLast.self yields

theorem settled_letIn (first : Settles w.role.kinds s.push t fun m => w.Right m code)
    (body : w.Settled t u (L.push.bindAll bs) e x) :
    w.Settled s u.pop L (.letIn bs e span) ⟨code ++ x.code, x.dest, x.type⟩ := by
  refine (first.bind body).scope.imp fun m _ ⟨codes, code, placed⟩ =>
    ⟨right_append.mpr ⟨codes, code⟩, fun T hT => ?_, fun yields => ?_⟩
  · obtain ⟨inner, checked, hT⟩ := hT.letIn
    cases checkBindings_ok checked
    exact placed.fits T hT
  · cases yields with | letIn yields =>
    exact placed.self yields

theorem settled_binary {op : BinaryOp} (hx : w.Settled s t L left x)
    (hy : w.Settled t u L right y) :
    w.Settled s (u.skip 1) L (.binary op left right span)
      ⟨x.code ++ y.code ++ [.compute (operation op).1 (tempName u.next) (operation op).2.ty
        [x.dest, y.dest]], tempName u.next, (operation op).2⟩ := by
  refine ((hx.bind hy).bind (.temp u (.value none))).imp ?_
  rintro m _ ⟨⟨⟨codeLeft, _⟩, codeRight, _⟩, dest⟩
  refine ⟨?_, fun T hT => ?_, nofun⟩
  · rw [right_append, right_append, right_cons]
    exact ⟨⟨codeLeft, codeRight⟩, typed_operation dest, right_nil⟩
  · obtain ⟨_, _, rfl⟩ := hT.binary
    exact .any (by split <;> rfl)

theorem settled_not (h : w.Settled s t L e x) :
    w.Settled s (t.skip 1) L (.unary .not e span)
      ⟨x.code ++ [.compute .not (tempName t.next) .bool [x.dest]], tempName t.next, .bool⟩ := by
  refine (h.bind (.temp t (.value none))).imp ?_
  rintro m _ ⟨⟨code, _⟩, dest⟩
  rw [right_append, right_cons]
  refine ⟨⟨code, .operation nofun nofun nofun dest, right_nil⟩, fun T hT => ?_, nofun⟩
  obtain ⟨_, rfl⟩ := hT.unary
  exact .of_eq dest

theorem settled_complement (h : w.Settled s t L e x) :
    w.Settled s (t.skip 2) L (.unary .complement e span)
      ⟨x.code ++ [.literal (tempName t.next) (.int 0),
        .compute .sub (tempName (t.next + 1)) .int [tempName t.next, x.dest]],
        tempName (t.next + 1), .int⟩ := by
  refine (h.bind (.temp₂ t (.value none) (.value none))).imp ?_
  rintro m _ ⟨⟨code, _⟩, zero, dest⟩
  rw [right_append, right_cons, right_cons]
  refine ⟨⟨code, .literal zero, .operation nofun nofun nofun dest, right_nil⟩, fun T hT => ?_,
    nofun⟩
  obtain ⟨_, rfl⟩ := hT.unary
  exact .of_eq dest

end Setting

/-- The registers of an expression get kinds with which its code is right. -/
theorem Lowers.settles {w : Setting} (fair : w.Fair) {hidden : List Bytes}
    (shown : ∀ n ∈ hidden, w.env.table.slot? w.env.self n = none) {s t : FunctionState} {e : Expr}
    {x : Lowered} (h : Lowers w.env s e x t) {L : Scopes ClassName}
    (here : AllCalm w.env hidden ⟨L, s, e⟩) : w.Settled s t L e x := by
  -- On how the code was made, which gives the classes of registers; what the checker knows of the
  -- same expression comes with `here`, and the two are compared case by case.
  induction h using Lowers.rec
    (motive_2 := fun s es xs t _ => ∀ (L : Scopes ClassName),
      ThroughoutRow (Calm w.env) w.env hidden L s es → w.SettledAll s t L es xs)
    (motive_3 := fun s bs code t _ => ∀ (L : Scopes ClassName), (∀ b ∈ bs, IsWord b.name.text) →
      ThroughoutBindings (Calm w.env) w.env hidden L s bs →
      Settles w.role.kinds s t fun m => w.Right m code) generalizing L with
  | assignLocal hv found ih => exact fair.settled_assignLocal here hv found (ih (here.child .value))
  | assignAttribute hv absent slot ih =>
    exact fair.settled_assignAttribute shown here hv absent slot (ih (here.child .value))
  | selfCall found code _ ih =>
    exact fair.settled_selfCall here found code (ih L here.selfArguments)
  | call hr found code _ ihr iha =>
    exact fair.settled_call here hr found code (ihr (here.child .receiver))
      (iha L (here.arguments hr))
  | staticCall hr found code _ ihr iha =>
    exact fair.settled_staticCall here found code (ihr (here.child .staticReceiver))
      (iha L (here.staticArguments hr))
  | cond ht hy hn iht ihy ihn =>
    have yes := here.child (.yes ht)
    have no := here.child (.no ht hy)
    have arms := ((ihy yes).branch (hy.keeps yes.wellFormed)).bind
      ((ihn no).branch (hn.keeps no.wellFormed))
    exact fair.joined (((iht (here.child .test)).bind arms).imp
      fun _ _ ⟨⟨codeTest, _⟩, arms⟩ => ⟨codeTest, arms⟩) here.typed
  | @loop s _ _ _ _ _ _ _ ht hb iht ihb =>
    have test := here.child .loopTest
    have body := here.child (.loopBody ht)
    have first := ((iht test).branch (ht.keeps test.wellFormed)).after (.skip s 1)
    refine (first.bind ((ihb body).branch (hb.keeps body.wellFormed))).imp ?_
    rintro m _ ⟨⟨codeTest, _⟩, codeBody, _⟩
    refine ⟨Setting.right_loopCode codeTest codeBody, fun T hT => ?_, nofun⟩
    obtain ⟨_, _, rfl⟩ := hT.loop
    exact .any rfl
  | block _ ih =>
    cases here.wellFormed with | block some_ _ =>
    exact Setting.settled_block some_ (ih L.push here.items)
  | letIn hb _ ihb ih =>
    cases here.wellFormed with | letIn names _ _ =>
    exact Setting.settled_letIn (ihb L.push names here.inits) (ih (here.child (.body hb)))
  | newInt isInt =>
    refine Setting.literal_settles (fun T hT => ?_) nofun
    obtain ⟨_, rfl⟩ := hT.new
    rw [isInt]
    rfl
  | newBool isBool =>
    refine Setting.literal_settles (fun T hT => ?_) nofun
    obtain ⟨_, rfl⟩ := hT.new
    rw [isBool]
    rfl
  | @newObject s _ _ c isClass _ _ _ known =>
    refine ((Settles.temp₂ s (.number (w.env.table.objectSize c)) (.value c.kind)).before
      (.recordAlloc _ _)).imp fun m _ ⟨size, dest⟩ =>
        ⟨fair.objectCode known size dest, fun T hT => ?_, nofun⟩
    obtain ⟨_, rfl⟩ := hT.new
    rw [isClass]
    exact .of_eq dest
  | binary hl _ ihl ihr =>
    exact Setting.settled_binary (ihl (here.child .left)) (ihr (here.child (.right hl)))
  | not _ ih => exact Setting.settled_not (ih (here.child (.operand nofun)))
  | complement _ ih => exact Setting.settled_complement (ih (here.child (.operand nofun)))
  | self isSelf =>
    refine .here (.refl _) fun m knows => ⟨Setting.right_nil, fun T hT => ?_, fun _ _ => knows.self⟩
    rw [(YieldsSelf.self isSelf : YieldsSelf w.env.table _ _).type hT]
    exact fair.fits_self knows
  | «local» notSelf found =>
    refine .here (.refl _) fun m knows => ⟨Setting.right_nil, fun T hT => ?_, fun yields => ?_⟩
    · exact type_of_local here.agree (hT.typeOf? notSelf) found ▸ .of_eq (knows.locals found)
    · exact absurd (notSelf.symm.trans yields.isSelf) nofun
  | «attribute» notSelf absent slot => exact fair.settled_attribute shown here notSelf absent slot
  | group _ ih =>
    refine (ih (here.child .inner)).imp fun m _ ⟨code, placed⟩ =>
      ⟨code, fun T hT => placed.fits T hT.group, fun yields => ?_⟩
    cases yields with | group inner =>
    exact placed.self inner
  | int =>
    refine Setting.literal_settles (fun T hT => ?_) nofun
    cases hT.int
    rfl
  | bool =>
    refine Setting.literal_settles (fun T hT => ?_) nofun
    cases hT.bool
    rfl
  | nil => exact .here (.refl _) fun m _ => ⟨Setting.right_nil, .nil⟩
  | cons hx _ ih ihs L calm =>
    refine ((ih calm.head).bind (ihs L (calm.tail hx))).imp ?_
    rintro m _ ⟨⟨code, placed⟩, codes, all⟩
    rw [List.flatMap_cons, Setting.right_append]
    exact ⟨⟨code, codes⟩, .cons placed all⟩
  | empty => exact .here (.refl _) fun m _ => Setting.right_nil
  | init hv _ ihv ih L words calm =>
    rw [List.forall_mem_cons] at words
    obtain ⟨checked, first⟩ := calm.head
    exact fair.settles_init words.1 checked (ihv (first _ rfl)) (ih _ words.2 (calm.tail_init hv))
  | @default s _ _ _ _ _ _ _ ih L words calm =>
    rw [List.forall_mem_cons] at words
    refine ((Settles.bound s words.1 _).bind (ih _ words.2 calm.tail_default)).imp ?_
    rintro m _ ⟨reg, rest⟩
    exact Setting.right_append.mpr ⟨Setting.right_defaultCode reg, rest⟩

end Cool
