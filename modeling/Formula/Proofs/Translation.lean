import Formula.Proofs.Blocks
import Formula.Proofs.Names
import Formula.Proofs.Pairing

/-! # Reading under other tables

Two grammars may differ in the operators that are switched on and in the names that stand for
values.  What one reads is then a translation of what the other reads: the same constructs, with
values in place of some of the variables.  It does not read everything: a construct may be switched
off, and a name that stands for a value can be no target and no parameter.

Readers are compared one by one (`Grammar.Translates`).  A reader answers the translations of what
the other one answers, as far as that is permitted; that much has to be known of what has been read
before, too, since a construct is refused where its operator stands, and only then put together.
-/
namespace Formula

/-- The side of its operand on which the operator stands. -/
def UnaryOp.fixity : UnaryOp → Fixity
  | .factorial => .after
  | _ => .before

/-- The construct is not switched off. -/
def Term.Permitted (options : Options) : Term → Prop
  | .unary op _ => options.allows op.symbol op.fixity = true
  | .binary op _ _ => options.allows op.symbol .between = true
  | .member _ _ | .index _ _ => options.allowMemberAccess = true
  | .array _ => options.allowsArray = true
  | .assign _ path _ =>
    options.allows "=" .between = true ∧ (path ≠ [] → options.allowMemberAccess = true)
  | .define _ _ _ => options.allowsDefinition = true
  | _ => True

/-- The construct gives a meaning to names that are free for it only. -/
def Term.BindsFree (free : String → Prop) : Term → Prop
  | .assign root _ _ => free root
  | .define name params _ => free name ∧ ∀ param ∈ params, free param
  | _ => True

/-- Every construct is kept, and the parts of it are translated.  Only variables are replaced: those
with a name that is not free stand for values. -/
structure Term.Translation (free : String → Prop) (f : Term → Term) : Prop where
  literal : ∀ v, f (.literal v) = .literal v
  undefined : f .undefined = .undefined
  kept : ∀ name, free name → f (.var name) = .var name
  replaced : ∀ name, ¬ free name → ∃ v, f (.var name) = .literal v
  unary : ∀ op t, f (.unary op t) = .unary op (f t)
  binary : ∀ op left right, f (.binary op left right) = .binary op (f left) (f right)
  and : ∀ left right, f (.and left right) = .and (f left) (f right)
  or : ∀ left right, f (.or left right) = .or (f left) (f right)
  choose : ∀ condition yes no,
    f (.choose condition yes no) = .choose (f condition) (f yes) (f no)
  caseOf : ∀ subject arms otherwise, f (.caseOf subject arms otherwise)
    = .caseOf (subject.map f) (arms.map (Prod.map f f)) (otherwise.map f)
  member : ∀ target name, f (.member target name) = .member (f target) name
  index : ∀ target key, f (.index target key) = .index (f target) (f key)
  call : ∀ callee arguments, f (.call callee arguments) = .call (f callee) (arguments.map f)
  array : ∀ items, f (.array items) = .array (items.map f)
  object : ∀ fields, f (.object fields) = .object (fields.map (Prod.map id f))
  assign : ∀ root path value, f (.assign root path value) = .assign root path (f value)
  define : ∀ name params body, f (.define name params body) = .define name params (f body)
  sequence : ∀ first rest, f (.sequence first rest) = .sequence (f first) (rest.map f)

namespace Grammar

/-! ## Laws of readers that translate -/

/-- Where `H` holds the left reader answers the translations of what the right one answers; of an
answer that satisfies `Q` it does so under no other condition. -/
def Translates (H : Prop) {α β : Type} (Q : α → Prop) (f : α → β) (m : Reader β) (m' : Reader α) :
    Prop :=
  ∀ s b r, H ∧ m s = .ok (b, r) ↔ ∃ a, m' s = .ok (a, r) ∧ Q a ∧ f a = b

section
variable {H K : Prop} {α β γ δ : Type} {P Q : α → Prop} {R : γ → Prop} {f : α → β} {h : γ → δ}
  {m : Reader β} {m' : Reader α}

theorem Translates.pure {a : α} (ha : H ↔ Q a) : Translates H Q f (pure (f a)) (pure a) := by
  intro s b r
  constructor
  · rintro ⟨hH, hrun⟩
    cases hrun
    exact ⟨a, rfl, ha.mp hH, rfl⟩
  · rintro ⟨_, hrun, hb, rfl⟩
    cases hrun
    exact ⟨ha.mpr hb, rfl⟩

theorem Translates.throw (failure failure' : Failure) :
    Translates H Q f (throw failure) (throw failure') := by
  intro s b r
  constructor
  · rintro ⟨-, hrun⟩
    cases hrun
  · rintro ⟨a, hrun, -⟩
    cases hrun

theorem Translates.fail (place place' : PlacedToken) (fault fault' : ParseFault) :
    Translates H Q f (fail place fault) (fail place' fault') := .throw _ _

theorem Translates.bind {k : β → Reader δ} {k' : α → Reader γ} (hm : Translates H P f m m')
    (hk : ∀ a, Translates (P a) R h (k (f a)) (k' a)) : Translates H R h (m >>= k) (m' >>= k') := by
  intro s d r
  constructor
  · rintro ⟨hH, hrun⟩
    obtain ⟨b, q, hmrun, hkrun⟩ := ok_of_bind hrun
    obtain ⟨a, hmrun', ha, rfl⟩ := (hm s b q).mp ⟨hH, hmrun⟩
    obtain ⟨c, hkrun', hc, rfl⟩ := (hk a q d r).mp ⟨ha, hkrun⟩
    exact ⟨c, (bind_of_ok hmrun').trans hkrun', hc, rfl⟩
  · rintro ⟨c, hrun, hc, rfl⟩
    obtain ⟨a, q, hmrun', hkrun'⟩ := ok_of_bind hrun
    obtain ⟨ha, hkrun⟩ := (hk a q _ r).mpr ⟨c, hkrun', hc, rfl⟩
    obtain ⟨hH, hmrun⟩ := (hm s _ q).mpr ⟨a, hmrun', ha, rfl⟩
    exact ⟨hH, (bind_of_ok hmrun).trans hkrun⟩

/-- Both begin in the same way. -/
theorem Translates.first {ε : Type} (first : Reader ε) {k : ε → Reader β} {k' : ε → Reader α}
    (hk : ∀ e, Translates H Q f (k e) (k' e)) : Translates H Q f (first >>= k) (first >>= k') := by
  have hsame : Translates H (fun _ => H) id first first := by
    intro s e r
    constructor
    · rintro ⟨hH, hrun⟩
      exact ⟨e, hrun, hH, rfl⟩
    · rintro ⟨_, hrun, hH, rfl⟩
      exact ⟨hH, hrun⟩
  exact hsame.bind hk

theorem Translates.iff (hm : Translates H P f m m') (hPQ : ∀ a, P a ↔ Q a) :
    Translates H Q f m m' := by
  intro s b r
  rw [hm s b r]
  exact exists_congr fun a => and_congr_right fun _ => and_congr_left fun _ => hPQ a

/-- What has been read before stays permitted. -/
theorem Translates.behind (hm : Translates H Q f m m') :
    Translates (K ∧ H) (fun a => K ∧ Q a) f m m' := by
  intro s b r
  rw [and_assoc, hm s b r, ← exists_and_left]
  refine exists_congr fun a => ?_
  rw [and_left_comm, and_assoc]

theorem Translates.under (hm : Translates True Q f m m') :
    Translates K (fun a => K ∧ Q a) f m m' := by
  have hbehind := hm.behind (K := K)
  rwa [and_true] at hbehind

theorem Translates.map {j : β → δ} {j' : α → γ} (hm : Translates H P f m m')
    (hf : ∀ a, j (f a) = h (j' a)) (hPR : ∀ a, P a ↔ R (j' a)) :
    Translates H R h (j <$> m) (j' <$> m') := by
  rw [map_eq_pure_bind, map_eq_pure_bind]
  refine hm.bind fun a => ?_
  rw [hf]
  exact .pure (hPR a)

theorem Translates.present {S : Option α → Prop} (hm : Translates H P f m m')
    (hPS : ∀ a, P a ↔ S (some a)) :
    Translates H S (Option.map f) (some <$> m) (some <$> m') := hm.map (fun _ => rfl) hPS

/-- Rounds of steps that translate translate. -/
theorem Translates.iterate {step : β → Reader (Option β)} {step' : α → Reader (Option α)}
    (hstep : ∀ a, Translates (P a) (fun next => next.elim (P a) P) (Option.map f) (step (f a))
      (step' a)) (rounds : Nat) (a : α) :
    Translates (P a) P f (Grammar.iterate step rounds (f a)) (Grammar.iterate step' rounds a) := by
  induction rounds generalizing a with
  | zero => exact .pure Iff.rfl
  | succ rounds ih =>
    refine (hstep a).bind fun next => ?_
    cases next with
    | none => exact .pure Iff.rfl
    | some b => exact ih b

theorem Translates.whileSome {step : β → Reader (Option β)} {step' : α → Reader (Option α)}
    (hstep : ∀ a, Translates (P a) (fun next => next.elim (P a) P) (Option.map f) (step (f a))
      (step' a)) (a : α) :
    Translates (P a) P f (Grammar.whileSome step (f a)) (Grammar.whileSome step' a) :=
  .first MonadState.get fun s => .iterate hstep (s.length + 1) a

/-- No step is answered. -/
theorem Translates.done {a : α} :
    Translates (P a) (fun next => next.elim (P a) P) (Option.map f) (Pure.pure none)
      (Pure.pure none) := .pure (a := none) Iff.rfl

/-- The left reader refuses what the right one answers, since none of that is permitted. -/
theorem Translates.refused (hnone : ∀ s a r, m' s = .ok (a, r) → ¬ Q a) (failure : Failure) :
    Translates H Q f (MonadExcept.throw failure) m' := by
  intro s b r
  constructor
  · rintro ⟨-, hrun⟩
    cases hrun
  · rintro ⟨a, hrun, ha, -⟩
    exact absurd ha (hnone s a r hrun)

/-- Readers behind switches, the left one behind a gate as well. -/
theorem Translates.gate {on on' gate : Bool} (hon : on = (on' && gate))
    (hm : Translates (H ∧ gate = true) Q f m m') (failure failure' : Failure) :
    Translates H Q f (if on = true then m else MonadExcept.throw failure)
      (if on' = true then m' else MonadExcept.throw failure') := by
  subst hon
  cases on' with
  | false => exact .throw _ _
  | true =>
    cases gate with
    | true => simpa using hm
    | false =>
      -- what the right reader answers and `Q` permits would need the gate to be open
      refine .refused (fun s a r hrun ha => ?_) _
      exact Bool.false_ne_true ((hm s (f a) r).mpr ⟨a, hrun, ha, rfl⟩).1.2

/-- Readers that depend on an answer, which the left one has in fewer cases. -/
theorem Translates.choice {ε : Type} {x x' : Option ε} {F : ε → Prop} {k : ε → Reader β}
    {k' : ε → Reader α} (hx : ∀ e, x = some e ↔ x' = some e ∧ F e)
    (hk : ∀ e, x' = some e → Translates (H ∧ F e) Q f (k e) (k' e)) (failure failure' : Failure) :
    Translates H Q f (x.elim (MonadExcept.throw failure) k)
      (x'.elim (MonadExcept.throw failure') k') := by
  cases x with
  | some e =>
    obtain ⟨rfl, he⟩ := (hx e).mp rfl
    simpa [he] using hk e rfl
  | none =>
    cases x' with
    | none => exact .throw _ _
    | some e =>
      have he : ¬ F e := fun he => nomatch (hx e).mpr ⟨rfl, he⟩
      refine .refused (fun s a r hrun ha => ?_) _
      exact he ((hk e rfl s (f a) r).mpr ⟨a, hrun, ha, rfl⟩).1.2

end

/-! ## Two grammars -/

/-- The grammar with other tables. -/
def under (g : Grammar) (options : Options) (constants : Dict Value) : Grammar :=
  ⟨options, constants, g.finish⟩

/-- What a name stands for. -/
def word (g : Grammar) (n : String) : Term :=
  match g.constants.get? n with
  | some v => .literal v
  | none => .var n

theorem name_eq (g : Grammar) (sub : Level → Reader Term) (place : PlacedToken) (n : String) :
    g.name sub place n = (
      if g.options.allowsConditional ∧ n = "case" then g.caseBlock sub
      else if g.options.allowsConditional ∧ n ∈ caseWords then fail place (.strayWord n)
      else pure (g.word n)) := by
  unfold Grammar.name word
  cases g.constants.get? n <;> rfl

/-- The name and the parameters of the function that a call defines on the left of a sign of
assignment. -/
def headOf? (callee : Term) (arguments : List Term) : Option (String × List String) :=
  (nameOf? callee).bind fun name => (arguments.mapM nameOf?).map (name, ·)

/-- What is made of the left side of an assignment and of what stands on the right. -/
def assigned (g : Grammar) (sub : Level → Reader Term) (place : PlacedToken) :
    Term → Reader Term
  | .call callee arguments =>
    if g.options.allowsDefinition = true then
      (headOf? callee arguments).elim (throw ⟨.parse .noParameter, place.start⟩) fun head =>
        .define head.1 head.2 <$> sub .assignment
    else throw ⟨.parse .definitionOff, place.start⟩
  | target =>
    (pathOf? target).elim (throw ⟨.parse .noTarget, place.start⟩) fun target =>
      .assign target.1 target.2 <$> sub .assignment

theorem assignment_eq (g : Grammar) (sub : Level → Reader Term) : g.assignment sub = (do
    let left ← sub .conditional
    let t ← g.peek
    if t.token = .sign .assign then
      g.takeOperator t "=" .between
      g.assigned sub t left
    else pure left) := by
  refine congrArg (sub .conditional >>= ·) (funext fun left => ?_)
  refine congrArg (g.peek >>= ·) (funext fun place => ?_)
  refine if_congr Iff.rfl (congrArg (g.takeOperator place "=" .between >>= ·) ?_) rfl
  refine funext fun _ => ?_
  unfold assigned headOf?
  cases left with
  | call callee arguments =>
    dsimp only
    cases nameOf? callee <;> cases arguments.mapM nameOf? <;> rfl
  | var name => rfl
  | member target name =>
    dsimp only
    cases pathOf? (.member target name) <;> rfl
  | _ => rfl

theorem assigned_of_ne_call (g : Grammar) (sub : Level → Reader Term) (place : PlacedToken)
    {t : Term} (ht : ∀ callee arguments, t ≠ .call callee arguments) :
    g.assigned sub place t
      = (pathOf? t).elim (throw ⟨.parse .noTarget, place.start⟩) fun target =>
        .assign target.1 target.2 <$> sub .assignment := by
  cases t with
  | call callee arguments => exact absurd rfl (ht callee arguments)
  | _ => rfl

/-- The grammar reads translations of what it would read under the other tables.  It has the gates
on top of the switches there, and they leave alone the words that name operators. -/
structure Translation (g : Grammar) (options : Options) (constants : Dict Value) (gates : Options)
    (free : String → Prop) (f : Term → Term) : Prop where
  term : Term.Translation free f
  word : ∀ n, g.word n = f ((g.under options constants).word n)
  allows : ∀ symbol fixity,
    g.options.allows symbol fixity = (options.allows symbol fixity && gates.allows symbol fixity)
  definition : g.options.allowsDefinition = (options.allowsDefinition && gates.allowsDefinition)
  array : g.options.allowsArray = (options.allowsArray && gates.allowsArray)
  access : g.options.allowMemberAccess = (options.allowMemberAccess && gates.allowMemberAccess)
  conditional : g.options.allowsConditional = options.allowsConditional
  namedOp : g.options.namedOp? = options.namedOp?
  named : ∀ op : NamedOp, gates.allows op.name .before = true
  and : gates.allows "and" .between = true
  or : gates.allows "or" .between = true
  choose : gates.allows "?" .between = true

/-- Every construct in the term is permitted, and gives a meaning to free names only. -/
abbrev Passes (gates : Options) (free : String → Prop) : Term → Prop :=
  Term.Everywhere fun t => t.Permitted gates ∧ t.BindsFree free

section
variable {gates : Options} {free : String → Prop}

theorem passes_iff (t : Term) : Passes gates free t ↔
    (t.Permitted gates ∧ t.BindsFree free) ∧ ∀ child ∈ t.children, Passes gates free child :=
  Term.everywhere_iff

theorem passes_leaf {t : Term} (hnone : t.children = [])
    (h : t.Permitted gates ∧ t.BindsFree free) : Passes gates free t :=
  (passes_iff t).mpr ⟨h, by simp [hnone]⟩

theorem passes_binary (op : BinaryOp) (left right : Term) :
    Passes gates free (.binary op left right) ↔
      (Passes gates free left ∧ gates.allows op.symbol .between = true) ∧
        Passes gates free right := by
  rw [passes_iff (.binary op left right)]
  simp [Term.children, Term.Permitted, Term.BindsFree, and_assoc, and_left_comm]

theorem passes_unary (op : UnaryOp) (t : Term) : Passes gates free (.unary op t)
    ↔ gates.allows op.symbol op.fixity = true ∧ Passes gates free t := by
  rw [passes_iff]
  simp [Term.children, Term.Permitted, Term.BindsFree]

theorem passes_word (g : Grammar) (n : String) : Passes gates free (g.word n) := by
  unfold word
  cases g.constants.get? n with
  | none => exact passes_leaf rfl ⟨trivial, trivial⟩
  | some v => exact passes_leaf rfl ⟨trivial, trivial⟩

/-- A path is read from a variable alone, or from member accesses. -/
theorem passes_of_pathOf? {target : Term} {root : String} {path : List String}
    (h : pathOf? target = some (root, path)) :
    Passes gates free target ↔ (path ≠ [] → gates.allowMemberAccess = true) := by
  induction target generalizing path with
  | var name =>
    cases h
    exact iff_of_true (passes_leaf rfl ⟨trivial, trivial⟩) (absurd rfl)
  | member target name ih =>
    obtain ⟨⟨_, front⟩, hfront, heq⟩ := Option.map_eq_some_iff.mp h
    cases heq
    rw [passes_iff (.member target name)]
    simp only [Term.children, Term.Permitted, Term.BindsFree, List.forall_mem_singleton, ih hfront]
    simp +contextual
  | _ => cases h

end

/-- What the head of a definition was read as has no construct with a switch. -/
theorem passes_head {gates : Options} {free : String → Prop} {callee : Term}
    {arguments : List Term} {head : String × List String}
    (h : headOf? callee arguments = some head) : Passes gates free (.call callee arguments) := by
  obtain ⟨name, hname, h⟩ := Option.bind_eq_some_iff.mp h
  obtain ⟨params, hparams, -⟩ := Option.map_eq_some_iff.mp h
  obtain rfl := eq_var_of_nameOf? hname
  obtain rfl := eq_map_var_of_mapM hparams
  have hvar : ∀ n, Passes gates free (.var n) := fun n => passes_leaf rfl ⟨trivial, trivial⟩
  refine (passes_iff _).mpr ⟨⟨trivial, trivial⟩, List.forall_mem_cons.mpr ⟨hvar name, ?_⟩⟩
  exact List.forall_mem_map.mpr fun n _ => hvar n

/-! ## Names and targets in translations -/

section
variable {free : String → Prop} {f : Term → Term} (hf : Term.Translation free f)
include hf

theorem nameOf?_translated {t : Term} {n : String} :
    nameOf? (f t) = some n ↔ nameOf? t = some n ∧ free n := by
  cases t with
  | var name =>
    by_cases hname : free name
    · rw [hf.kept name hname]
      exact (and_iff_left_of_imp fun h => Option.some.inj h ▸ hname).symm
    · obtain ⟨v, hv⟩ := hf.replaced name hname
      rw [hv]
      refine iff_of_false (by rintro ⟨⟩) fun h => hname ?_
      exact Option.some.inj h.1 ▸ h.2
  | _ =>
    simp only [hf.literal, hf.undefined, hf.unary, hf.binary, hf.and, hf.or, hf.choose, hf.caseOf,
      hf.member, hf.index, hf.call, hf.array, hf.object, hf.assign, hf.define, hf.sequence,
      nameOf?, reduceCtorEq, false_and]

theorem mapM_nameOf?_translated {terms : List Term} {names : List String} :
    (terms.map f).mapM nameOf? = some names
      ↔ terms.mapM nameOf? = some names ∧ ∀ n ∈ names, free n := by
  induction terms generalizing names with
  | nil => simp +contextual [eq_comm]
  | cons t terms ih =>
    simp only [List.map_cons, List.mapM_cons, Option.bind_eq_bind, Option.bind_eq_some_iff,
      Option.pure_def, Option.some.injEq]
    constructor
    · rintro ⟨n, hn, more, hmore, rfl⟩
      obtain ⟨hn, hfree⟩ := (nameOf?_translated hf).mp hn
      obtain ⟨hmore, hall⟩ := ih.mp hmore
      exact ⟨⟨n, hn, more, hmore, rfl⟩, List.forall_mem_cons.mpr ⟨hfree, hall⟩⟩
    · rintro ⟨⟨n, hn, more, hmore, rfl⟩, hfree⟩
      obtain ⟨hhere, hall⟩ := List.forall_mem_cons.mp hfree
      exact ⟨n, (nameOf?_translated hf).mpr ⟨hn, hhere⟩, more, ih.mpr ⟨hmore, hall⟩, rfl⟩

theorem headOf?_translated {callee : Term} {arguments : List Term} {head : String × List String} :
    headOf? (f callee) (arguments.map f) = some head
      ↔ headOf? callee arguments = some head ∧ free head.1 ∧ ∀ param ∈ head.2, free param := by
  simp only [headOf?, Option.bind_eq_some_iff, Option.map_eq_some_iff, nameOf?_translated hf,
    mapM_nameOf?_translated hf]
  constructor
  · rintro ⟨name, ⟨hname, hfree⟩, params, ⟨hparams, hall⟩, rfl⟩
    exact ⟨⟨name, hname, params, hparams, rfl⟩, hfree, hall⟩
  · rintro ⟨⟨name, hname, params, hparams, rfl⟩, hfree, hall⟩
    exact ⟨name, ⟨hname, hfree⟩, params, ⟨hparams, hall⟩, rfl⟩

theorem pathOf?_translated {t : Term} {target : String × List String} :
    pathOf? (f t) = some target ↔ pathOf? t = some target ∧ free target.1 := by
  induction t generalizing target with
  | var name =>
    by_cases hname : free name
    · rw [hf.kept name hname]
      exact (and_iff_left_of_imp fun h => Option.some.inj h ▸ hname).symm
    · obtain ⟨v, hv⟩ := hf.replaced name hname
      rw [hv]
      refine iff_of_false (by rintro ⟨⟩) fun h => hname ?_
      have hroot := Option.some.inj h.1
      rw [← hroot] at h
      exact h.2
  | member t name ih =>
    rw [hf.member, pathOf?, pathOf?, Option.map_eq_some_iff, Option.map_eq_some_iff]
    constructor
    · rintro ⟨path, hpath, rfl⟩
      exact ⟨⟨path, (ih.mp hpath).1, rfl⟩, (ih.mp hpath).2⟩
    · rintro ⟨⟨path, hpath, rfl⟩, hfree⟩
      exact ⟨path, ih.mpr ⟨hpath, hfree⟩, rfl⟩
  | _ =>
    simp only [hf.literal, hf.undefined, hf.unary, hf.binary, hf.and, hf.or, hf.choose, hf.caseOf,
      hf.index, hf.call, hf.array, hf.object, hf.assign, hf.define, hf.sequence, pathOf?,
      reduceCtorEq, false_and]

/-- Nothing becomes a call. -/
theorem translated_ne_call {t : Term} (ht : ∀ callee arguments, t ≠ .call callee arguments)
    (callee : Term) (arguments : List Term) : f t ≠ .call callee arguments := by
  cases t with
  | var name =>
    by_cases hname : free name
    · rw [hf.kept name hname]
      rintro ⟨⟩
    · obtain ⟨v, hv⟩ := hf.replaced name hname
      rw [hv]
      rintro ⟨⟩
  | call callee arguments => exact absurd rfl (ht callee arguments)
  | _ =>
    simp only [hf.literal, hf.undefined, hf.unary, hf.binary, hf.and, hf.or, hf.choose, hf.caseOf,
      hf.member, hf.index, hf.array, hf.object, hf.assign, hf.define, hf.sequence]
    rintro ⟨⟩

end

/-! ## The readers of the grammar -/

section
variable {g : Grammar} {options gates : Options} {constants : Dict Value} {free : String → Prop}
  {f : Term → Term}

/-- What the left reader answers are translations of terms that are permitted. -/
abbrev Renders (gates : Options) (free : String → Prop) (f : Term → Term) (m m' : Reader Term) :
    Prop :=
  Translates True (Passes gates free) f m m'

variable (hg : g.Translation options constants gates free f)
include hg

theorem passes_named (op : NamedOp) (t : Term) :
    Passes gates free (.unary (.named op) t) ↔ Passes gates free t := by
  rw [passes_unary]
  exact and_iff_right (hg.named op)

theorem translates_takeOperator {H : Prop} (place : PlacedToken) (symbol : String)
    (fixity : Fixity) :
    Translates H (fun _ => H ∧ gates.allows symbol fixity = true) id
      (g.takeOperator place symbol fixity)
      ((g.under options constants).takeOperator place symbol fixity) := by
  unfold takeOperator
  exact .gate (hg.allows symbol fixity) (.first g.advance fun _ => .pure (a := ()) Iff.rfl) _ _

/-- The operand behind an operator that has been seen, and what is made of both. -/
theorem translates_joined {left : Term} {join : Term → Term → Term} {operand operand' : Reader Term}
    (h : Renders gates free f operand operand') (place : PlacedToken) {symbol : String}
    {fixity : Fixity} (htranslated : ∀ right, f (join left right) = join (f left) (f right))
    (hjoin : ∀ right, Passes gates free (join left right)
      ↔ (Passes gates free left ∧ gates.allows symbol fixity = true) ∧ Passes gates free right) :
    Translates (Passes gates free left)
      (fun next => next.elim (Passes gates free left) (Passes gates free)) (Option.map f)
      (do
        g.takeOperator place symbol fixity
        let right ← operand
        pure (some (join (f left) right)))
      (do
        (g.under options constants).takeOperator place symbol fixity
        let right ← operand'
        pure (some (join left right))) := by
  refine (translates_takeOperator hg place symbol fixity).bind fun _ => h.under.bind fun right => ?_
  rw [← htranslated]
  exact .pure (a := some (join left right)) (hjoin right).symm

theorem translates_chain (op? : Sign → Option BinaryOp) {operand operand' : Reader Term}
    (h : Renders gates free f operand operand') :
    Renders gates free f (g.chain op? operand)
      ((g.under options constants).chain op? operand') := by
  refine h.bind fun t => .whileSome (fun left => ?_) t
  refine .first g.peek fun place => ?_
  cases place.token with
  | sign sign =>
    dsimp only
    cases op? sign with
    | none => exact .done
    | some op =>
      exact translates_joined hg h place (hg.term.binary op left) (passes_binary op left)
  | _ => exact .done

theorem translates_wordChain {word : String} {join : Term → Term → Term}
    (hword : gates.allows word .between = true)
    (htranslated : ∀ left right, f (join left right) = join (f left) (f right))
    (hjoin : ∀ left right, Passes gates free (join left right)
      ↔ Passes gates free left ∧ Passes gates free right)
    {operand operand' : Reader Term} (h : Renders gates free f operand operand') :
    Renders gates free f (g.wordChain word join operand)
      ((g.under options constants).wordChain word join operand') := by
  refine h.bind fun t => .whileSome (fun left => ?_) t
  refine .first g.peek fun place => ?_
  by_cases hplace : place.token = .name word
  · rw [if_pos hplace, if_pos hplace]
    exact translates_joined hg h place (htranslated left) fun right => by
      rw [hjoin, hword, eq_self, and_true]
  · rw [if_neg hplace, if_neg hplace]
    exact .done

variable {sub sub' : Level → Reader Term}
  (hsub : ∀ level, Renders gates free f (sub level) (sub' level))
include hsub

omit hg in
theorem translates_listUntil (close : Token) :
    Translates True (fun items => ∀ t ∈ items, Passes gates free t) (List.map f)
      (g.listUntil sub close) ((g.under options constants).listUntil sub' close) := by
  refine .first (g.accept close) fun empty => ?_
  cases empty with
  | true => exact .pure (a := []) (by simp)
  | false =>
    refine (hsub _).bind fun first => ?_
    have hlink : ∀ items : List Term, Translates (∀ t ∈ items, Passes gates free t)
        (fun next => next.elim (∀ t ∈ items, Passes gates free t)
          fun items => ∀ t ∈ items, Passes gates free t) (Option.map (List.map f))
        (g.listLink sub (items.map f)) ((g.under options constants).listLink sub' items) := by
      intro items
      refine .first (g.accept .comma) fun more => ?_
      cases more with
      | true =>
        refine (hsub _).under.bind fun item => ?_
        rw [← List.map_singleton, ← List.map_append]
        exact .pure (a := some (items ++ [item])) (by simp [or_imp, forall_and])
      | false => exact .pure (a := none) Iff.rfl
    have hitems := Translates.whileSome hlink [first]
    rw [List.forall_mem_singleton, List.map_singleton] at hitems
    exact hitems.bind fun items => .first (g.expect close) fun _ => .pure (a := items) Iff.rfl

omit hg in
theorem translates_fieldsUntil (rounds : Nat) (fields : List (String × Term)) :
    Translates (∀ field ∈ fields, Passes gates free field.2)
      (fun fields => ∀ field ∈ fields, Passes gates free field.2) (List.map (Prod.map id f))
      (g.fieldsUntil sub rounds (fields.map (Prod.map id f)))
      ((g.under options constants).fieldsUntil sub' rounds fields) := by
  induction rounds generalizing fields with
  | zero => exact .pure (a := fields) Iff.rfl
  | succ rounds ih =>
    refine .first (g.accept (.bracket .curlyClose)) fun closed => ?_
    cases closed with
    | true => exact .pure (a := fields) Iff.rfl
    | false =>
      refine .first g.advance fun place => ?_
      cases keyOf? place.token with
      | none => exact .fail _ _ _ _
      | some key =>
        dsimp only
        split
        · exact .throw _ _
        · refine .first (g.expect (.sign .colon)) fun _ => ?_
          refine (hsub _).under.bind fun value => ?_
          have hmore : (∀ field ∈ fields, Passes gates free field.2) ∧ Passes gates free value
              ↔ ∀ field ∈ fields ++ [(key, value)], Passes gates free field.2 := by
            simp [or_imp, forall_and]
          have hfields : fields.map (Prod.map id f) ++ [(key, f value)]
              = (fields ++ [(key, value)]).map (Prod.map id f) := by simp
          rw [hmore, hfields]
          refine .first (g.accept .comma) fun more => ?_
          cases more with
          | true => exact ih _
          | false =>
            exact .first (g.expect (.bracket .curlyClose)) fun _ => .pure (a := fields ++ _) Iff.rfl

theorem translates_statements :
    Renders gates free f (g.statements sub) ((g.under options constants).statements sub') := by
  have hlink : ∀ found : List Term × Bool, Translates (∀ t ∈ found.1, Passes gates free t)
      (fun next => next.elim (∀ t ∈ found.1, Passes gates free t)
        fun found => ∀ t ∈ found.1, Passes gates free t) (Option.map (Prod.map (List.map f) id))
      (g.statementLink sub (found.map (List.map f) id))
      ((g.under options constants).statementLink sub' found) := by
    rintro ⟨found, _ | _⟩
    · refine .first (g.accept .semicolon) fun more => ?_
      cases more with
      | false => exact .pure (a := none) Iff.rfl
      | true =>
        refine .first g.peek fun place => ?_
        dsimp only
        split
        · exact .pure (a := some (found, true)) Iff.rfl
        · refine (hsub _).under.bind fun statement => ?_
          have hfound : (found.map f ++ [f statement], false)
              = Prod.map (List.map f) id (found ++ [statement], false) := by simp
          rw [Prod.map_fst, hfound]
          exact .pure (a := some (found ++ [statement], false)) (by simp [or_imp, forall_and])
    · exact .pure (a := none) Iff.rfl
  rw [statements_eq, statements_eq]
  refine (hsub _).bind fun first => .first g.peek fun place => ?_
  split
  · have hrounds := Translates.whileSome hlink ([], false)
    simp only [List.not_mem_nil, false_implies, implies_true] at hrounds
    refine hrounds.under.bind fun found => ?_
    rw [Prod.map_fst, ← hg.term.sequence]
    refine .pure (a := Term.sequence first found.1) ?_
    rw [passes_iff (.sequence first found.1)]
    simp [Term.children, Term.Permitted, Term.BindsFree]
  · exact .pure (a := first) Iff.rfl

omit hg in
theorem translates_arms :
    Translates True (fun arms => ∀ arm ∈ arms, Passes gates free arm.1 ∧ Passes gates free arm.2)
      (List.map (Prod.map f f)) (g.arms sub) ((g.under options constants).arms sub') := by
  have hlink : ∀ found : List (Term × Term), Translates
      (∀ arm ∈ found, Passes gates free arm.1 ∧ Passes gates free arm.2)
      (fun next => next.elim (∀ arm ∈ found, Passes gates free arm.1 ∧ Passes gates free arm.2)
        fun found => ∀ arm ∈ found, Passes gates free arm.1 ∧ Passes gates free arm.2)
      (Option.map (List.map (Prod.map f f)))
      (g.armLink sub (found.map (Prod.map f f)))
      ((g.under options constants).armLink sub' found) := by
    intro found
    refine .first g.peek fun place => ?_
    rw [List.isEmpty_map]
    split
    · refine .first g.advance fun _ => (hsub _).under.bind fun condition => ?_
      refine .first (g.expectWord "then") fun _ => (hsub _).under.bind fun result => ?_
      have hfound : found.map (Prod.map f f) ++ [(f condition, f result)]
          = (found ++ [(condition, result)]).map (Prod.map f f) := by simp
      rw [hfound]
      refine .pure (a := some (found ++ [(condition, result)])) (Iff.trans and_assoc ?_)
      simp only [Option.elim_some, List.forall_mem_append, List.forall_mem_singleton]
    · split
      · exact .fail _ _ _ _
      · exact .pure (a := none) Iff.rfl
  rw [arms_eq, arms_eq]
  have hrounds := Translates.whileSome hlink []
  simp only [List.not_mem_nil, false_implies, implies_true] at hrounds
  exact hrounds

theorem translates_caseBlock :
    Renders gates free f (g.caseBlock sub) ((g.under options constants).caseBlock sub') := by
  refine .first g.peek fun place => ?_
  extract_lets withSubject withSubject'
  have hsubject : ∀ subject : Option Term, Translates (∀ t ∈ subject, Passes gates free t)
      (Passes gates free) f (withSubject (subject.map f)) (withSubject' subject) := by
    intro subject
    refine (translates_arms hsub).under.bind fun arms => .first g.peek fun place => ?_
    extract_lets withLast withLast'
    have hlast : ∀ otherwise : Option Term, Translates
        (((∀ t ∈ subject, Passes gates free t) ∧
          ∀ arm ∈ arms, Passes gates free arm.1 ∧ Passes gates free arm.2) ∧
            ∀ t ∈ otherwise, Passes gates free t) (Passes gates free) f
        (withLast (otherwise.map f)) (withLast' otherwise) := by
      intro otherwise
      refine .first (g.expectWord "end") fun _ => ?_
      rw [← hg.term.caseOf]
      refine .pure (a := Term.caseOf subject arms otherwise) ?_
      rw [passes_iff (.caseOf subject arms otherwise)]
      rw [forall_children_caseOf, and_assoc]
      exact (and_iff_right ⟨trivial, trivial⟩).symm
    split
    · refine .first g.advance fun _ => ?_
      exact ((hsub _).under.present fun t => by simp).bind hlast
    · simpa using hlast none
  split
  · simpa using hsubject none
  · exact ((hsub _).present fun t => by simp).bind hsubject

theorem translates_name (place : PlacedToken) (name : String) :
    Renders gates free f (g.name sub place name)
      ((g.under options constants).name sub' place name) := by
  have hconditional : (g.under options constants).options.allowsConditional
      = g.options.allowsConditional := hg.conditional.symm
  rw [name_eq, name_eq, hconditional, hg.word]
  split
  · exact translates_caseBlock hg hsub
  · split
    · exact .fail _ _ _ _
    · exact .pure (iff_of_true trivial (passes_word _ _))

theorem translates_atom :
    Renders gates free f (g.atom sub) ((g.under options constants).atom sub') := by
  refine .first g.advance fun place => ?_
  have hleaf : ∀ t : Term, f t = t → t.children = [] → t.Permitted gates ∧ t.BindsFree free →
      Renders gates free f (pure t) (pure t) := by
    intro t hsame hnone ht
    have hread := Translates.pure (H := True) (f := f) (a := t) (Q := Passes gates free)
      (iff_of_true trivial (passes_leaf hnone ht))
    rwa [hsame] at hread
  cases place.token with
  | name n => exact translates_name hg hsub place n
  | number x => exact hleaf _ (hg.term.literal _) rfl ⟨trivial, trivial⟩
  | string s => exact hleaf _ (hg.term.literal _) rfl ⟨trivial, trivial⟩
  | keyword k =>
    cases k with
    | undefinedWord => exact hleaf _ hg.term.undefined rfl ⟨trivial, trivial⟩
    | _ => exact hleaf _ (hg.term.literal _) rfl ⟨trivial, trivial⟩
  | bracket b =>
    cases b with
    | roundOpen =>
      exact (translates_statements hg hsub).bind fun inner =>
        .first (g.expect (.bracket .roundClose)) fun _ => .pure Iff.rfl
    | squareOpen =>
      refine .gate hg.array ?_ _ _
      refine (translates_listUntil hsub _).under.map (fun items => (hg.term.array items).symm)
        fun items => ?_
      rw [passes_iff (.array items), true_and]
      simp only [Term.Permitted, Term.BindsFree, and_true]
      rfl
    | curlyOpen =>
      refine .first MonadState.get fun s => ?_
      have hfields : Translates True (fun fields => ∀ field ∈ fields, Passes gates free field.2)
          (List.map (Prod.map id f)) (g.fieldsUntil sub (s.length + 1) [])
          ((g.under options constants).fieldsUntil sub' (s.length + 1) []) := by
        simpa using translates_fieldsUntil hsub (s.length + 1) []
      refine hfields.map (fun fields => (hg.term.object fields).symm) fun fields => ?_
      rw [passes_iff (.object fields)]
      simp only [Term.children, Term.Permitted, Term.BindsFree, true_and, List.forall_mem_map]
    | _ => exact .fail _ _ _ _
  | _ => exact .fail _ _ _ _

theorem translates_access (target : Term) :
    Translates (Passes gates free target)
      (fun next => next.elim (Passes gates free target) (Passes gates free)) (Option.map f)
      (g.access sub (f target)) ((g.under options constants).access sub' target) := by
  refine .first g.peek fun place => ?_
  cases place.token with
  | sign sign =>
    cases sign with
    | dot =>
      refine .gate hg.access (.first g.advance fun _ => .first g.advance fun second => ?_) _ _
      cases memberName? second.token with
      | none => exact .fail _ _ _ _
      | some name =>
        dsimp only
        rw [← hg.term.member]
        refine .pure (a := some (Term.member target name)) ?_
        rw [Option.elim_some, passes_iff (.member target name)]
        simp [Term.children, Term.Permitted, Term.BindsFree, and_comm]
    | _ => exact .done
  | bracket b =>
    cases b with
    | squareOpen =>
      refine .gate hg.access (.first g.advance fun _ => (hsub _).under.bind fun key =>
        .first (g.expect (.bracket .squareClose)) fun _ => ?_) _ _
      rw [← hg.term.index]
      refine .pure (a := some (Term.index target key)) ?_
      rw [Option.elim_some, passes_iff (.index target key)]
      simp [Term.children, Term.Permitted, Term.BindsFree, and_assoc, and_left_comm]
    | roundOpen =>
      refine .first g.advance fun _ => (translates_listUntil hsub _).under.bind
        fun arguments => ?_
      rw [← hg.term.call]
      refine .pure (a := some (Term.call target arguments)) ?_
      rw [Option.elim_some, passes_iff (.call target arguments)]
      simp [Term.children, Term.Permitted, Term.BindsFree]
    | _ => exact .done
  | _ => exact .done

theorem translates_operand :
    Renders gates free f (g.operand sub) ((g.under options constants).operand sub') := by
  have hcalled : (g.under options constants).calledOperator? = g.calledOperator? := by
    unfold calledOperator?
    rw [hg.namedOp]
    rfl
  unfold Grammar.operand
  rw [hcalled]
  refine .first g.calledOperator? fun called => ?_
  cases called with
  | none => exact (translates_atom hg hsub).bind fun t => .whileSome (translates_access hg hsub) t
  | some op =>
    refine .first g.advance fun _ => ?_
    have hatom := (translates_atom hg hsub).iff fun inner => (passes_named hg op inner).symm
    refine hatom.bind fun inner => ?_
    rw [← hg.term.unary]
    exact .whileSome (translates_access hg hsub) _

theorem translates_factorial :
    Renders gates free f (g.factorial sub) ((g.under options constants).factorial sub') := by
  refine (translates_operand hg hsub).bind fun t => .whileSome (fun inner => ?_) t
  refine .first g.peek fun place => ?_
  split
  · refine (translates_takeOperator hg place "!" .after).bind fun _ => ?_
    rw [← hg.term.unary]
    refine .pure (a := some (Term.unary .factorial inner)) ?_
    rw [Option.elim_some, passes_unary, and_comm]
    rfl
  · exact .done

theorem translates_power :
    Renders gates free f (g.power sub) ((g.under options constants).power sub') := by
  refine (translates_factorial hg hsub).bind fun t => .whileSome (fun base => ?_) t
  refine .first g.peek fun place => ?_
  split
  · exact translates_joined hg (hsub .factor) place (hg.term.binary .power base)
      (passes_binary .power base)
  · exact .done

theorem translates_factor :
    Renders gates free f (g.factor sub) ((g.under options constants).factor sub') := by
  have hpower := translates_power hg hsub
  have hnamed : (g.under options constants).options.namedOp? = g.options.namedOp? :=
    hg.namedOp.symm
  have hsign : ∀ (op : UnaryOp) (place : PlacedToken), Renders gates free f
      (do g.takeOperator place op.symbol op.fixity; .unary op <$> sub .factor)
      (do (g.under options constants).takeOperator place op.symbol op.fixity
          .unary op <$> sub' .factor) := by
    intro op place
    refine (translates_takeOperator hg place op.symbol op.fixity).bind fun _ =>
      (hsub .factor).under.map (fun t => (hg.term.unary op t).symm) fun t => ?_
    rw [passes_unary, true_and]
  refine .first g.peek fun place => ?_
  cases place.token with
  | sign sign =>
    cases sign with
    | minus => exact hsign .negate place
    | plus => exact hsign .plus place
    | _ => exact hpower
  | name n =>
    dsimp only
    rw [hnamed]
    cases g.options.namedOp? n with
    | none => exact hpower
    | some op =>
      refine .first g.peekSecond fun second => ?_
      split
      · exact hpower
      · exact .first g.advance fun _ => (hsub .factor).map
          (fun t => (hg.term.unary (.named op) t).symm) fun t => (passes_named hg op t).symm
  | _ => exact hpower

theorem translates_comparison :
    Renders gates free f (g.comparison sub) ((g.under options constants).comparison sub') :=
  translates_chain hg _ (translates_chain hg _ (translates_chain hg _
    (translates_chain hg _ (hsub .factor))))

theorem translates_disjunction :
    Renders gates free f (g.disjunction sub) ((g.under options constants).disjunction sub') := by
  refine translates_wordChain hg hg.or hg.term.or (fun left right => ?_)
    (translates_wordChain hg hg.and hg.term.and (fun left right => ?_)
      (translates_comparison hg hsub))
  · rw [passes_iff (.or left right)]
    simp [Term.children, Term.Permitted, Term.BindsFree]
  · rw [passes_iff (.and left right)]
    simp [Term.children, Term.Permitted, Term.BindsFree]

theorem translates_membership :
    Renders gates free f (g.membership sub) ((g.under options constants).membership sub') := by
  have hdisjunction := translates_disjunction hg hsub
  refine hdisjunction.bind fun t => .whileSome (fun left => ?_) t
  refine .first g.peek fun place => .first (g.membershipWord? place) fun word => ?_
  cases word with
  | none => exact .done
  | some negated =>
    cases negated with
    | false =>
      exact translates_joined hg hdisjunction place (hg.term.binary .isIn left)
        (passes_binary .isIn left)
    | true =>
      refine (translates_takeOperator hg place "in" .between).bind fun _ => ?_
      refine .first g.advance fun _ => hdisjunction.under.bind fun right => ?_
      dsimp only
      rw [if_pos rfl, if_pos rfl, ← hg.term.binary, ← hg.term.unary]
      refine .pure (a := some (Term.unary (.named .not) (.binary .isIn left right))) ?_
      rw [Option.elim_some, passes_named hg]
      exact (passes_binary .isIn left right).symm

theorem translates_conditional :
    Renders gates free f (g.conditional sub) ((g.under options constants).conditional sub') := by
  refine (translates_membership hg hsub).bind fun condition => .first g.peek fun place => ?_
  split
  · refine (translates_takeOperator hg place "?" .between).bind fun _ => ?_
    refine (hsub .conditional).under.bind fun yes => ?_
    refine .first (g.expect (.sign .colon)) fun _ => ?_
    refine (hsub .conditional).under.bind fun no => ?_
    rw [← hg.term.choose]
    refine .pure ?_
    rw [passes_iff (.choose condition yes no), hg.choose]
    simp [Term.children, Term.Permitted, Term.BindsFree, and_assoc]
  · exact .pure Iff.rfl

theorem translates_assignment :
    Renders gates free f (g.assignment sub) ((g.under options constants).assignment sub') := by
  have hassign : gates.allowsDefinition = true → gates.allows "=" .between = true :=
    fun h => (Bool.and_eq_true_iff.mp h).2
  rw [assignment_eq, assignment_eq]
  refine (hsub .conditional).bind fun left => .first g.peek fun place => ?_
  split
  · refine (translates_takeOperator hg place "=" .between).bind fun _ => ?_
    by_cases hcall : ∃ callee arguments, left = .call callee arguments
    · obtain ⟨callee, arguments, rfl⟩ := hcall
      rw [hg.term.call]
      refine .gate hg.definition ?_ _ _
      -- the head was read as a call, and stands in the term as names
      refine .choice (fun head => headOf?_translated hg.term) (fun head hhead => ?_) _ _
      refine (hsub .assignment).under.map (fun body => (hg.term.define _ _ body).symm)
        fun body => ?_
      rw [passes_iff (.define head.1 head.2 body)]
      simp only [Term.children, Term.Permitted, Term.BindsFree, List.forall_mem_singleton,
        passes_head hhead, true_and]
      constructor
      · rintro ⟨⟨⟨-, hdefinition⟩, hfree⟩, hbody⟩
        exact ⟨⟨hdefinition, hfree⟩, hbody⟩
      · rintro ⟨⟨hdefinition, hfree⟩, hbody⟩
        exact ⟨⟨⟨hassign hdefinition, hdefinition⟩, hfree⟩, hbody⟩
    · have hleft : ∀ callee arguments, left ≠ .call callee arguments :=
        fun callee arguments h => hcall ⟨callee, arguments, h⟩
      rw [assigned_of_ne_call _ _ _ hleft,
        assigned_of_ne_call _ _ _ (translated_ne_call hg.term hleft)]
      -- the target was read as member accesses, and stands in the term as a path
      refine .choice (fun target => pathOf?_translated hg.term) (fun target htarget => ?_) _ _
      refine (hsub .assignment).under.map (fun value => (hg.term.assign _ _ value).symm)
        fun value => ?_
      rw [passes_iff (.assign target.1 target.2 value), passes_of_pathOf? htarget]
      simp [Term.children, Term.Permitted, Term.BindsFree, and_comm]
  · exact .pure Iff.rfl

end

section
variable {g : Grammar} {options gates : Options} {constants : Dict Value} {free : String → Prop}
  {f : Term → Term} (hg : g.Translation options constants gates free f)
include hg

theorem translates_level (depth : Nat) (l : Level) :
    Renders gates free f (g.level depth l) ((g.under options constants).level depth l) := by
  induction depth generalizing l with
  | zero => exact .first g.peek fun place => .fail _ _ _ _
  | succ depth ih =>
    cases l with
    | assignment => exact translates_assignment hg ih
    | conditional => exact translates_conditional hg ih
    | factor => exact translates_factor hg ih

/-- Whole texts are translated, under one limit of nesting. -/
theorem translates_whole (hdepth : g.options.maxDepth = options.maxDepth) :
    Renders gates free f g.whole (g.under options constants).whole := by
  have hlevel := translates_level hg options.maxDepth
  unfold Grammar.whole
  rw [hdepth]
  refine (translates_statements hg hlevel).bind fun t => .first g.peek fun place => ?_
  split
  · exact .pure Iff.rfl
  · exact .fail _ _ _ _

end

end Grammar

theorem Term.parse_eq_ok {options : Options} {constants : Dict Value} {source : String} {t : Term} :
    Term.parse options constants source = .ok t ↔
      ∃ rest, (Grammar.mk options constants (finishOf source.toList)).whole (lexemes source.toList)
        = .ok (t, rest) := by
  unfold Term.parse StateT.run
  dsimp only
  split <;> simp_all

/-- **Under other tables a text is read as the translation of a term that is permitted.** -/
theorem Term.parse_translated {options options' gates : Options} {constants constants' : Dict Value}
    {free : String → Prop} {f : Term → Term} {source : String}
    (h : (Grammar.mk options constants (finishOf source.toList)).Translation options' constants'
      gates free f) (hdepth : options.maxDepth = options'.maxDepth) {t : Term} :
    Term.parse options constants source = .ok t ↔
      ∃ plain, Term.parse options' constants' source = .ok plain ∧
        Grammar.Passes gates free plain ∧ f plain = t := by
  have hwhole := Grammar.translates_whole h hdepth (lexemes source.toList) t
  simp only [Term.parse_eq_ok, ← exists_and_right]
  rw [exists_comm]
  exact exists_congr fun rest => (and_iff_right trivial).symm.trans (hwhole rest)

end Formula
