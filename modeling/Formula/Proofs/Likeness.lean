import Formula.Evaluation.Scope
import Formula.Value.Operation
import Mathlib.Data.List.Forall2

/-! # Values that differ in the bodies of functions

Two values are alike if they are the same but for the bodies of the functions in them, and each
body on the right is one that `bodies` allows for the function on the left (`Like`).  No operator
looks into a body: on values that are alike every operator answers values that are alike, or the
same failure.
-/
namespace Formula

/-! ## Related tables and outcomes -/

/-- Tables with the same names and related entries. -/
inductive Dict.Rel {α β : Type} (R : α → β → Prop) : Dict α → Dict β → Prop
  | nil : Dict.Rel R [] []
  | cons {v : α} {w : β} {fs : Dict α} {gs : Dict β} (key : String) (head : R v w)
      (tail : Dict.Rel R fs gs) : Dict.Rel R ((key, v) :: fs) ((key, w) :: gs)

section
variable {α β : Type} {R S : α → β → Prop} {fs : Dict α} {gs : Dict β}

theorem Dict.Rel.mono (h : Dict.Rel R fs gs) (hrs : ∀ v w, R v w → S v w) : Dict.Rel S fs gs := by
  induction h with
  | nil => exact .nil
  | cons key head _ ih => exact .cons key (hrs _ _ head) ih

theorem Dict.Rel.get? (h : Dict.Rel R fs gs) (name : String) :
    Option.Rel R (fs.get? name) (gs.get? name) := by
  induction h with
  | nil => exact .none
  | cons key head _ ih =>
    rw [Dict.get?, Dict.get?]
    split
    · exact .some head
    · exact ih

theorem isSome_eq_of_rel {a : Option α} {b : Option β} (h : Option.Rel R a b) :
    a.isSome = b.isSome := by
  cases h <;> rfl

theorem Dict.Rel.contains_eq (h : Dict.Rel R fs gs) (name : String) :
    fs.contains name = gs.contains name := isSome_eq_of_rel (h.get? name)

theorem Dict.Rel.insert (h : Dict.Rel R fs gs) (name : String) {v : α} {w : β} (hvw : R v w) :
    Dict.Rel R (fs.insert name v) (gs.insert name w) := by
  induction h with
  | nil => exact .cons name hvw .nil
  | cons key head tail ih =>
    rw [Dict.insert, Dict.insert, tail.contains_eq name]
    split
    · exact .cons name hvw tail
    · split
      · exact .cons name hvw (.cons key head tail)
      · exact .cons key head ih

theorem optionRel_or {a c : Option α} {b d : Option β} (hab : Option.Rel R a b)
    (hcd : Option.Rel R c d) : Option.Rel R (a.or c) (b.or d) := by
  cases hab with
  | none => exact hcd
  | some h => exact .some h

theorem optionRel_bind {γ δ : Type} {T : γ → δ → Prop} {a : Option γ} {b : Option δ}
    {f : γ → Option α} {g : δ → Option β} (h : Option.Rel T a b)
    (hfg : ∀ x y, T x y → Option.Rel R (f x) (g y)) : Option.Rel R (a.bind f) (b.bind g) := by
  cases h with
  | none => exact .none
  | some h => exact hfg _ _ h

theorem optionRel_getElem? {xs : List α} {ys : List β} (h : List.Forall₂ R xs ys) (i : Nat) :
    Option.Rel R xs[i]? ys[i]? := by
  induction h generalizing i with
  | nil => exact .none
  | cons head _ ih =>
    cases i with
    | zero => exact .some head
    | succ i => exact ih i

/-- Outcomes with related answers, or the same failure. -/
inductive OutcomeRel {ε α β : Type} (R : α → β → Prop) : Except ε α → Except ε β → Prop
  | ok {a : α} {b : β} (h : R a b) : OutcomeRel R (.ok a) (.ok b)
  | error (e : ε) : OutcomeRel R (.error e) (.error e)

theorem OutcomeRel.bind {ε α β γ δ : Type} {R : α → β → Prop} {S : γ → δ → Prop}
    {x : Except ε α} {y : Except ε β} {f : α → Except ε γ} {g : β → Except ε δ}
    (h : OutcomeRel R x y) (hfg : ∀ a b, R a b → OutcomeRel S (f a) (g b)) :
    OutcomeRel S (x >>= f) (y >>= g) := by
  cases h with
  | ok h => exact hfg _ _ h
  | error e => exact .error e

theorem Dict.Rel.refl {R : α → α → Prop} (hR : ∀ a, R a a) (fs : Dict α) : Dict.Rel R fs fs := by
  induction fs with
  | nil => exact .nil
  | cons entry fs ih => exact .cons entry.1 (hR entry.2) ih

theorem OutcomeRel.refl {ε : Type} {R : α → α → Prop} (hR : ∀ a, R a a) (x : Except ε α) :
    OutcomeRel R x x := by
  cases x with
  | ok a => exact .ok (hR a)
  | error e => exact .error e

end

/-! ## Values that are alike -/

/-- The values are the same but for the bodies of functions; `bodies` says which body may stand on
the right for that of a function on the left. -/
inductive Like (bodies : Closure → Program → Prop) : Value → Value → Prop
  | same (v : Value) : Like bodies v v
  | array {xs ys : List Value} (items : List.Forall₂ (Like bodies) xs ys) :
      Like bodies (.array xs) (.array ys)
  | object {fs gs : Dict Value} (fields : Dict.Rel (Like bodies) fs gs) :
      Like bodies (.object fs) (.object gs)
  | closure {c d : Closure} (id : c.id = d.id) (name : c.name = d.name)
      (params : c.params = d.params) (body : bodies c d.body)
      (captured : Option.Rel (Dict.Rel (Like bodies)) c.captured d.captured) :
      Like bodies (.function (.closure c)) (.function (.closure d))

section
variable {bodies : Closure → Program → Prop}

/-- Induction over values that are alike. -/
@[elab_as_elim]
theorem Like.induct {motive : Value → Value → Prop} (same : ∀ v, motive v v)
    (array : ∀ xs ys, List.Forall₂ (Like bodies) xs ys → List.Forall₂ motive xs ys →
      motive (.array xs) (.array ys))
    (object : ∀ fs gs, Dict.Rel (Like bodies) fs gs → Dict.Rel motive fs gs →
      motive (.object fs) (.object gs))
    (closure : ∀ c d : Closure, c.id = d.id → c.name = d.name → c.params = d.params →
      bodies c d.body → Option.Rel (Dict.Rel motive) c.captured d.captured →
      motive (.function (.closure c)) (.function (.closure d)))
    {v w : Value} (h : Like bodies v w) : motive v w := by
  refine @Like.rec bodies (fun v w _ => motive v w) (fun xs ys _ => List.Forall₂ motive xs ys)
    (fun fs gs _ => Dict.Rel motive fs gs) (fun c d _ => Option.Rel (Dict.Rel motive) c d)
    same ?_ ?_ ?_ .nil ?_ .nil ?_ ?_ .none v w h
  · intro xs ys items ih
    exact array xs ys items ih
  · intro fs gs fields ih
    exact object fs gs fields ih
  · intro c d id name params body captured ih
    exact closure c d id name params body ih
  · intro a b l₁ l₂ _ _ head tail
    exact .cons head tail
  · intro v w fs gs key _ _ head tail
    exact .cons key head tail
  · intro a b _ ih
    exact .some ih

theorem Like.mono {other : Closure → Program → Prop} (hb : ∀ c body, bodies c body → other c body)
    {v w : Value} (h : Like bodies v w) : Like other v w := by
  refine Like.induct ?_ ?_ ?_ ?_ h
  · exact .same
  · exact fun xs ys _ ih => .array ih
  · exact fun fs gs _ ih => .object ih
  · exact fun c d id name params body ih => .closure id name params (hb c d.body body) ih

theorem likeAll_refl (xs : List Value) : List.Forall₂ (Like bodies) xs xs :=
  List.forall₂_same.mpr fun v _ => .same v

theorem likeEntries_refl (fs : Dict Value) : Dict.Rel (Like bodies) fs fs :=
  Dict.Rel.refl .same fs

/-- Functions that are alike differ in their bodies only. -/
theorem Like.of_closure {c d : Closure}
    (h : Like bodies (.function (.closure c)) (.function (.closure d))) :
    c.name = d.name ∧ c.params = d.params ∧ (c = d ∨ bodies c d.body) ∧
      Option.Rel (Dict.Rel (Like bodies)) c.captured d.captured := by
  cases h with
  | same =>
    refine ⟨rfl, rfl, .inl rfl, ?_⟩
    cases c.captured with
    | none => exact .none
    | some locals => exact .some (likeEntries_refl locals)
  | closure id name params body captured => exact ⟨name, params, .inr body, captured⟩

theorem Like.isTruthy_eq {v w : Value} (h : Like bodies v w) : v.isTruthy = w.isTruthy := by
  cases h <;> rfl

theorem Like.toNumber_eq {v w : Value} (h : Like bodies v w) : v.toNumber = w.toNumber := by
  refine Like.induct ?_ ?_ ?_ ?_ h
  · intro v
    rfl
  · intro xs ys _ ih
    rw [Value.toNumber, Value.toNumber]
    cases ih with
    | nil => rfl
    | cons head tail =>
      cases tail with
      | nil => exact head
      | cons _ _ => rfl
  · intro fs gs _ _
    rfl
  · intro c d _ _ _ _ _
    rfl

theorem itemTexts_eq {xs ys : List Value}
    (h : List.Forall₂ (fun v w => v.text = w.text ∧ itemText v = itemText w) xs ys) :
    itemTexts xs = itemTexts ys := by
  induction h with
  | nil => rfl
  | cons head _ ih => rw [itemTexts, itemTexts, head.2, ih]

theorem Like.texts_eq {v w : Value} (h : Like bodies v w) :
    v.text = w.text ∧ itemText v = itemText w := by
  refine Like.induct ?_ ?_ ?_ ?_ h
  · exact fun v => ⟨rfl, rfl⟩
  · intro xs ys _ ih
    simp only [Value.text, itemText, itemTexts_eq ih, and_self]
  · exact fun fs gs _ _ => ⟨rfl, rfl⟩
  · intro c d _ name _ _ _
    simp only [Value.text, itemText, Callable.name, name, and_self]

theorem Like.text_eq {v w : Value} (h : Like bodies v w) : v.text = w.text := h.texts_eq.1

theorem Like.length_eq {v w : Value} (h : Like bodies v w) : v.length = w.length := by
  have htext := h.text_eq
  cases h with
  | same v => rfl
  | array items => exact items.length_eq
  | object fields => exact congrArg String.length htext
  | closure id name params body captured => exact congrArg String.length htext

/-! ## Equality -/

section
variable {R S : Value → Value → Prop} (h : ∀ u v x y, R u v → S x y → u.same x = v.same y)
include h

theorem sameItems_congr {us vs xs ys : List Value} (hus : List.Forall₂ R us vs)
    (hxs : List.Forall₂ S xs ys) : sameItems us xs = sameItems vs ys := by
  induction hus generalizing xs ys with
  | nil => cases hxs <;> rfl
  | cons huv _ ih =>
    cases hxs with
    | nil => rfl
    | cons hxy htail => rw [sameItems, sameItems, h _ _ _ _ huv hxy, ih htail]

theorem sameFields_congr {us vs xs ys : Dict Value} (hus : Dict.Rel R us vs)
    (hxs : Dict.Rel S xs ys) : sameFields us xs = sameFields vs ys := by
  induction hus generalizing xs ys with
  | nil => cases hxs <;> rfl
  | cons key huv _ ih =>
    cases hxs with
    | nil => rfl
    | cons key' hxy htail => rw [sameFields, sameFields, h _ _ _ _ huv hxy, ih htail]

end

theorem Like.same_right {v w : Value} (h : Like bodies v w) (u : Value) :
    u.same v = u.same w := by
  revert u
  refine Like.induct ?_ ?_ ?_ ?_ h
  · intro v u
    rfl
  · intro xs ys _ ih u
    cases u with
    | array us =>
      have heq : List.Forall₂ Eq us us := List.forall₂_same.mpr fun _ _ => rfl
      refine sameItems_congr ?_ heq ih
      rintro u _ x y rfl hxy
      exact hxy u
    | _ => rfl
  · intro fs gs _ ih u
    cases u with
    | object us =>
      refine sameFields_congr ?_ (Dict.Rel.refl Eq.refl us) ih
      rintro u _ x y rfl hxy
      exact hxy u
    | _ => rfl
  · intro c d id _ _ _ _ u
    cases u with
    | function f =>
      cases f with
      | closure b => simp only [Value.same, Callable.same, id]
      | _ => rfl
    | _ => rfl

theorem Like.same_left {v w : Value} (h : Like bodies v w) (u : Value) :
    v.same u = w.same u := by
  revert u
  refine Like.induct ?_ ?_ ?_ ?_ h
  · intro v u
    rfl
  · intro xs ys _ ih u
    cases u with
    | array us =>
      have heq : List.Forall₂ Eq us us := List.forall₂_same.mpr fun _ _ => rfl
      refine sameItems_congr ?_ ih heq
      rintro u v x _ huv rfl
      exact huv x
    | _ => rfl
  · intro fs gs _ ih u
    cases u with
    | object us =>
      refine sameFields_congr ?_ ih (Dict.Rel.refl Eq.refl us)
      rintro u v x _ huv rfl
      exact huv x
    | _ => rfl
  · intro c d id _ _ _ _ u
    cases u with
    | function f =>
      cases f with
      | closure b => simp only [Value.same, Callable.same, id]
      | _ => rfl
    | _ => rfl

theorem Like.same_eq {v w x y : Value} (h : Like bodies v w) (hxy : Like bodies x y) :
    v.same x = w.same y := by rw [h.same_left x, hxy.same_right w]

/-! ## Operators -/

theorem like_named {v w : Value} (h : Like bodies v w) (op : NamedOp) :
    op.apply v = op.apply w := by
  cases op with
  | length => simp only [NamedOp.apply, h.length_eq]
  | not => simp only [NamedOp.apply, h.isTruthy_eq]
  | _ => simp only [NamedOp.apply, Value.onNumber, h.toNumber_eq]

theorem like_unary {v w : Value} (h : Like bodies v w) (op : UnaryOp) :
    op.apply v = op.apply w := by
  cases op with
  | named op => simp only [UnaryOp.apply, like_named h op]
  | unknown spelling => rfl
  | _ => simp only [UnaryOp.apply, Value.onNumber, h.toNumber_eq]

/-- The items of a value that is an array. -/
def Value.items? : Value → Option (List Value)
  | .array items => some items
  | _ => none

/-- The text of a value that is one. -/
def Value.string? : Value → Option String
  | .string s => some s
  | _ => none

theorem Like.items? {v w : Value} (h : Like bodies v w) :
    Option.Rel (List.Forall₂ (Like bodies)) v.items? w.items? := by
  cases h with
  | same v =>
    cases v with
    | array items => exact .some (likeAll_refl items)
    | _ => exact .none
  | array items => exact .some items
  | _ => exact .none

theorem Like.string?_eq {v w : Value} (h : Like bodies v w) : v.string? = w.string? := by
  cases h <;> rfl

theorem concatenate_eq (v w : Value) :
    v.concatenate w = match v.items?, w.items? with
      | some a, some b => .array (a ++ b)
      | _, _ => .string (v.text ++ w.text) := by
  cases v <;> cases w <;> rfl

theorem less_eq (v w : Value) :
    v.less w = match v.string?, w.string? with
      | some a, some b => decide (a < b)
      | _, _ => decide (v.toNumber < w.toNumber) := by
  cases v <;> cases w <;> rfl

theorem lessEqual_eq (v w : Value) :
    v.lessEqual w = match v.string?, w.string? with
      | some a, some b => !(decide (b < a))
      | _, _ => decide (v.toNumber ≤ w.toNumber) := by
  cases v <;> cases w <;> rfl

theorem like_concatenate {v w x y : Value} (h : Like bodies v w) (hxy : Like bodies x y) :
    Like bodies (v.concatenate x) (w.concatenate y) := by
  rw [concatenate_eq, concatenate_eq, h.text_eq, hxy.text_eq]
  have hv := h.items?
  have hx := hxy.items?
  revert hv hx
  cases v.items? <;> cases w.items? <;> intro hv <;> cases hv <;> cases x.items? <;>
    cases y.items? <;> intro hx <;> cases hx
  · exact .same _
  · exact .same _
  · exact .same _
  · rename_i hv _ _ hx
    exact .array (List.rel_append hv hx)

theorem like_less {v w x y : Value} (h : Like bodies v w) (hxy : Like bodies x y) :
    v.less x = w.less y := by
  rw [less_eq, less_eq, h.string?_eq, hxy.string?_eq, h.toNumber_eq, hxy.toNumber_eq]

theorem like_lessEqual {v w x y : Value} (h : Like bodies v w) (hxy : Like bodies x y) :
    v.lessEqual x = w.lessEqual y := by
  rw [lessEqual_eq, lessEqual_eq, h.string?_eq, hxy.string?_eq, h.toNumber_eq, hxy.toNumber_eq]

theorem any_same_eq {xs ys : List Value} (h : List.Forall₂ (Like bodies) xs ys) {v w : Value}
    (hvw : Like bodies v w) :
    (xs.any fun item => item.same v) = ys.any fun item => item.same w := by
  induction h with
  | nil => rfl
  | cons head _ ih => rw [List.any_cons, List.any_cons, head.same_eq hvw, ih]

theorem like_isIn {v w x y : Value} (h : Like bodies v w) (hxy : Like bodies x y) :
    v.isIn x = w.isIn y := by
  cases hxy with
  | same x =>
    cases x with
    | array items => exact any_same_eq (likeAll_refl items) h
    | string s => simp only [Value.isIn, h.text_eq]
    | object fields => simp only [Value.isIn, h.text_eq]
    | _ => rfl
  | array items => exact any_same_eq items h
  | object fields => simp only [Value.isIn, h.text_eq, fields.contains_eq]
  | closure => rfl

theorem like_binary {v w x y : Value} (h : Like bodies v w) (hxy : Like bodies x y)
    (op : BinaryOp) : OutcomeRel (Like bodies) (op.apply v x) (op.apply w y) := by
  cases op with
  | concatenate => exact .ok (like_concatenate h hxy)
  | unknown spelling => exact .error _
  | equal | notEqual =>
    simp only [BinaryOp.apply, h.same_eq hxy]
    exact .ok (.same _)
  | less =>
    simp only [BinaryOp.apply, like_less h hxy]
    exact .ok (.same _)
  | lessEqual =>
    simp only [BinaryOp.apply, like_lessEqual h hxy]
    exact .ok (.same _)
  | greater =>
    simp only [BinaryOp.apply, like_less hxy h]
    exact .ok (.same _)
  | greaterEqual =>
    simp only [BinaryOp.apply, like_lessEqual hxy h]
    exact .ok (.same _)
  | isIn =>
    simp only [BinaryOp.apply, like_isIn h hxy]
    exact .ok (.same _)
  | _ =>
    simp only [BinaryOp.apply, h.toNumber_eq, hxy.toNumber_eq]
    exact .ok (.same _)

/-! ## Access -/

theorem like_getD {v w : Option Value} (h : Option.Rel (Like bodies) v w) :
    Like bodies (v.getD .undefined) (w.getD .undefined) := by
  cases h with
  | none => exact .same _
  | some h => exact h

theorem Dict.Rel.getD {fs gs : Dict Value} (h : Dict.Rel (Like bodies) fs gs) (name : String) :
    Like bodies ((fs.get? name).getD .undefined) ((gs.get? name).getD .undefined) :=
  like_getD (h.get? name)

theorem like_field {v w : Value} (h : Like bodies v w) (name : String) :
    OutcomeRel (Like bodies) (v.field name) (w.field name) := by
  cases h with
  | same v => exact OutcomeRel.refl .same _
  | array items =>
    rw [Value.field, Value.field, items.length_eq]
    exact OutcomeRel.refl .same _
  | object fields => exact .ok (fields.getD name)
  | closure => exact .ok (.same _)

theorem outcomeRel_check {R : Value → Value → Prop} {x y : Except Fault Value} (name : String)
    (h : OutcomeRel R x y) :
    OutcomeRel R (checkName name >>= fun _ => x) (checkName name >>= fun _ => y) := by
  cases checkName name with
  | ok u => exact h
  | error fault => exact .error fault

theorem like_member {v w : Value} (h : Like bodies v w) (name : String) :
    OutcomeRel (Like bodies) (v.member name) (w.member name) :=
  outcomeRel_check name (like_field h name)

theorem like_itemAt {xs ys : List Value} (h : List.Forall₂ (Like bodies) xs ys)
    (place : Option Nat) : Like bodies (Value.itemAt xs place) (Value.itemAt ys place) := by
  cases place with
  | none => exact .same _
  | some n => exact like_getD (optionRel_getElem? h n)

theorem outcomeRel_map {α : Type} {R : Value → Value → Prop} {f g : α → Value}
    (h : ∀ a, R (f a) (g a)) (x : Except Fault α) : OutcomeRel R (x.map f) (x.map g) := by
  cases x with
  | ok a => exact .ok (h a)
  | error fault => exact .error fault

theorem like_entry {v w x y : Value} (h : Like bodies v w) (hxy : Like bodies x y) :
    OutcomeRel (Like bodies) (v.entry x) (w.entry y) := by
  have htext := hxy.text_eq
  have hobject : ∀ {fs gs : Dict Value}, Dict.Rel (Like bodies) fs gs →
      OutcomeRel (Like bodies) ((Value.object fs).entry x) ((Value.object gs).entry y) := by
    intro fs gs hfields
    simp only [Value.entry, htext]
    exact outcomeRel_check y.text (.ok (hfields.getD _))
  have harray : ∀ {xs ys : List Value}, List.Forall₂ (Like bodies) xs ys →
      OutcomeRel (Like bodies) ((Value.array xs).entry x) ((Value.array ys).entry y) := by
    intro xs ys hitems
    cases hxy with
    | same x =>
      cases x with
      | number i => exact outcomeRel_map (like_itemAt hitems) _
      | string name => exact like_member (.array hitems) name
      | _ => exact .ok (.same _)
    | _ => exact .ok (.same _)
  cases h with
  | same v =>
    cases v with
    | object fields => exact hobject (likeEntries_refl fields)
    | array items => exact harray (likeAll_refl items)
    | undefined | null =>
      simp only [Value.entry, htext]
      exact .error _
    | string s =>
      cases hxy with
      | same x => exact OutcomeRel.refl .same _
      | _ => exact .ok (.same _)
    | _ => exact .ok (.same _)
  | array items => exact harray items
  | object fields => exact hobject fields
  | closure => exact .ok (.same _)

theorem like_index {v w x y : Value} (h : Like bodies v w) (hxy : Like bodies x y) :
    OutcomeRel (Like bodies) (v.index x) (w.index y) := by
  have hentry := like_entry h hxy
  cases hxy with
  | same x =>
    cases x with
    | string name => exact outcomeRel_check name hentry
    | _ => exact hentry
  | _ => exact hentry

/-- Two changes of a value in place that end alike. -/
inductive ChangeRel (R : Value → Value → Prop) :
    EStateM.Result Fault Value Unit → EStateM.Result Fault Value Unit → Prop
  | ok {v w : Value} (h : R v w) : ChangeRel R (.ok () v) (.ok () w)
  | error (fault : Fault) {v w : Value} (h : R v w) :
      ChangeRel R (.error fault v) (.error fault w)

/-- Values that are alike offer fields that are alike, and are of one type where they offer none. -/
theorem like_takenFields? {v w : Value} (h : Like bodies v w) :
    Option.Rel (Dict.Rel (Like bodies)) v.takenFields? w.takenFields? ∧ v.typeName = w.typeName := by
  cases h with
  | same v =>
    refine ⟨?_, rfl⟩
    cases v with
    | object fields => exact .some (likeEntries_refl fields)
    | undefined | null => exact .some .nil
    | _ => exact .none
  | array items => exact ⟨.none, rfl⟩
  | object fields => exact ⟨.some fields, rfl⟩
  | closure => exact ⟨.none, rfl⟩

theorem like_put {v w x y : Value} (h : Like bodies v w) (hxy : Like bodies x y)
    (path : List String) : ChangeRel (Like bodies) (v.put path x) (w.put path y) := by
  induction path generalizing v w with
  | nil => exact .ok hxy
  | cons name rest ih =>
    obtain ⟨htaken, htype⟩ := like_takenFields? h
    rw [Value.put, Value.put, htype]
    generalize v.takenFields? = fs at htaken
    generalize w.takenFields? = gs at htaken
    cases htaken with
    | none => exact .error _ h
    | some hfields =>
      have hinner := ih (hfields.getD name)
      dsimp only
      generalize Value.put _ rest x = inner at hinner
      generalize Value.put _ rest y = inner' at hinner
      cases hinner with
      | ok hinner => exact .ok (.object (hfields.insert name hinner))
      | error fault hinner => exact .error fault (.object (hfields.insert name hinner))

end
end Formula
