import Mathlib.Data.List.Basic

/-!
# `Vertz.Lib.Effects`: computations that log their effects

A computation is the list of the events it causes, and the result it
returns or the error it throws. A crash stops it anywhere, so what has
happened then is the first events of the list.

A protocol is a relation that says which events may come in a state and
which state they lead to. The theorems:

* `Guided.bind`, `Guided.each`, `Guided.together`: a computation that
  keeps to a protocol, step by step.
* `Follow.split`: a protocol is kept to up to any point.
* `Follow.invariant`: what every event keeps holds all along.
-/

namespace Vertz.Lib

/-- The events up to the result, or to the error that is thrown. -/
structure Effects (E α : Type) where
  events : List E
  result : Except String α

namespace Effects

variable {E S α β : Type}

def ret (a : α) : Effects E α := ⟨[], .ok a⟩

def throw (error : String) : Effects E α := ⟨[], .error error⟩

def perform (event : E) : Effects E Unit := ⟨[event], .ok ()⟩

def bind (x : Effects E α) (f : α → Effects E β) : Effects E β :=
  match x.result with
  | .error e => ⟨x.events, .error e⟩
  | .ok a => ⟨x.events ++ (f a).events, (f a).result⟩

def ofExcept : Except String α → Effects E α
  | .error e => throw e
  | .ok a => ret a

/-- One after the other. -/
def each (f : α → Effects E β) : List α → Effects E (List β)
  | [] => ret []
  | a :: as => (f a).bind fun b => (each f as).bind fun bs => ret (b :: bs)

/-- The results of all, or the first error. -/
def collect (f : α → Except String β) : List α → Except String (List β)
  | [] => .ok []
  | a :: as =>
    match f a with
    | .error e => .error e
    | .ok b =>
      match collect f as with
      | .error e => .error e
      | .ok bs => .ok (b :: bs)

/-- All are started before any result is awaited. -/
def together (f : α → Effects E β) (as : List α) : Effects E (List β) where
  events := as.flatMap fun a => (f a).events
  result := collect (fun a => (f a).result) as

/-! ### Running -/

theorem bind_ok {x : Effects E α} {f : α → Effects E β} {b : β}
    (h : (x.bind f).result = .ok b) : ∃ a, x.result = .ok a ∧ (f a).result = .ok b ∧
      (x.bind f).events = x.events ++ (f a).events := by
  unfold bind at h ⊢
  cases hx : x.result with
  | error e =>
    rw [hx] at h
    cases h
  | ok a =>
    rw [hx] at h
    exact ⟨a, rfl, h, rfl⟩

@[simp] theorem bind_ret (a : α) (f : α → Effects E β) : (ret a).bind f = f a := rfl

@[simp] theorem bind_throw (e : String) (f : α → Effects E β) :
    (throw e : Effects E α).bind f = throw e := rfl

theorem ofExcept_ok_bind {r : Except String α} {a : α} (h : r = .ok a) (f : α → Effects E β) :
    (ofExcept r).bind f = f a := by
  rw [h]
  rfl

theorem bind_perform (event : E) (f : Unit → Effects E β) :
    (perform event).bind f = ⟨event :: (f ()).events, (f ()).result⟩ := rfl

theorem bind_of_ok {x : Effects E α} {a : α} (h : x.result = .ok a) (f : α → Effects E β) :
    x.bind f = ⟨x.events ++ (f a).events, (f a).result⟩ := by
  unfold bind
  rw [h]

theorem bind_of_error {x : Effects E α} {e : String} (h : x.result = .error e)
    (f : α → Effects E β) : x.bind f = ⟨x.events, .error e⟩ := by
  unfold bind
  rw [h]

@[simp] theorem bind_result (x : Effects E α) (f : α → Effects E β) :
    (x.bind f).result = x.result.bind fun a => (f a).result := by
  unfold bind
  cases x.result <;> rfl

theorem bind_result_congr (x : Effects E α) {f g : α → Effects E β}
    (h : ∀ a, (f a).result = (g a).result) : (x.bind f).result = (x.bind g).result := by
  rw [bind_result, bind_result, funext h]

@[simp] theorem ofExcept_result (r : Except String α) :
    (ofExcept r : Effects E α).result = r := by
  cases r <;> rfl

theorem bind_assoc {γ : Type} (x : Effects E α) (f : α → Effects E β) (g : β → Effects E γ) :
    (x.bind f).bind g = x.bind fun a => (f a).bind g := by
  cases hx : x.result with
  | error e =>
    rw [bind_of_error hx, bind_of_error hx]
    rfl
  | ok a =>
    rw [bind_of_ok hx, bind_of_ok hx]
    cases hf : (f a).result with
    | error e => rw [bind_of_error hf, bind_of_error rfl]
    | ok b => rw [bind_of_ok hf, bind_of_ok rfl, List.append_assoc]

theorem collect_ok {f : α → Except String β} {as : List α} {bs : List β}
    (h : collect f as = .ok bs) : List.Forall₂ (fun a b => f a = .ok b) as bs := by
  induction as generalizing bs with
  | nil =>
    cases h
    exact .nil
  | cons a as ih =>
    rw [collect] at h
    cases hf : f a with
    | error e =>
      rw [hf] at h
      cases h
    | ok b =>
      rw [hf] at h
      cases hrest : collect f as with
      | error e =>
        simp only [hrest] at h
        cases h
      | ok bs' =>
        simp only [hrest] at h
        cases h
        exact .cons hf (ih hrest)

theorem together_ok {f : α → Effects E β} {as : List α} {bs : List β}
    (h : (together f as).result = .ok bs) :
    List.Forall₂ (fun a b => (f a).result = .ok b) as bs := collect_ok h

theorem each_ok {f : α → Effects E β} {as : List α} {bs : List β}
    (h : (each f as).result = .ok bs) :
    List.Forall₂ (fun a b => (f a).result = .ok b) as bs := by
  induction as generalizing bs with
  | nil =>
    cases h
    exact .nil
  | cons a as ih =>
    obtain ⟨b, hb, hrest, -⟩ := bind_ok h
    obtain ⟨bs', hbs, hret, -⟩ := bind_ok hrest
    cases hret
    exact .cons hb (ih hbs)

/-! ### Which events -/

/-- All events are of some kind. -/
def Only (P : E → Prop) (x : Effects E α) : Prop := ∀ e ∈ x.events, P e

section

variable {P : E → Prop} {x : Effects E α}

theorem Only.ret (a : α) : Only P (ret a) := by
  intro e he
  cases he

theorem Only.throw (error : String) : Only P (throw error : Effects E α) := by
  intro e he
  cases he

theorem Only.ofExcept (r : Except String α) : Only P (ofExcept r) := by
  cases r with
  | error e => exact .throw e
  | ok a => exact .ret a

theorem Only.perform {event : E} (h : P event) : Only P (perform event) := by
  intro e he
  cases List.mem_singleton.mp he
  exact h

theorem Only.bind {f : α → Effects E β} (h : Only P x) (hf : ∀ a, Only P (f a)) :
    Only P (x.bind f) := by
  cases hx : x.result with
  | error e =>
    rw [bind_of_error hx]
    exact h
  | ok a =>
    rw [bind_of_ok hx]
    intro e he
    rcases List.mem_append.mp he with he | he
    · exact h e he
    · exact hf a e he

theorem Only.each {f : α → Effects E β} (hf : ∀ a, Only P (f a)) (as : List α) :
    Only P (each f as) := by
  induction as with
  | nil => exact .ret []
  | cons a as ih => exact (hf a).bind fun _ => ih.bind fun _ => .ret _

theorem Only.together {f : α → Effects E β} (hf : ∀ a, Only P (f a)) (as : List α) :
    Only P (together f as) := by
  intro e he
  obtain ⟨a, -, hmem⟩ := List.mem_flatMap.mp he
  exact hf a e hmem

end

/-! ### Protocols -/

/-- The events lead from one state of the protocol to another. -/
inductive Follow (step : S → E → S → Prop) : S → List E → S → Prop where
  | nil (s : S) : Follow step s [] s
  | cons {s s' s'' : S} {e : E} {es : List E} (h : step s e s') (hrest : Follow step s' es s'') :
      Follow step s (e :: es) s''

section

variable {step : S → E → S → Prop}

theorem Follow.append {s s' s'' : S} {es fs : List E} (h : Follow step s es s')
    (h' : Follow step s' fs s'') : Follow step s (es ++ fs) s'' := by
  induction h with
  | nil => exact h'
  | cons hstep _ ih => exact .cons hstep (ih h')

theorem Follow.split {s s'' : S} {es fs : List E} (h : Follow step s (es ++ fs) s'') :
    ∃ s', Follow step s es s' ∧ Follow step s' fs s'' := by
  induction es generalizing s with
  | nil => exact ⟨s, .nil s, h⟩
  | cons e es ih =>
    cases h with
    | cons hstep hrest =>
      obtain ⟨s', hfront, hback⟩ := ih hrest
      exact ⟨s', .cons hstep hfront, hback⟩

theorem Follow.take {s s' : S} {es : List E} (h : Follow step s es s') (n : ℕ) :
    ∃ s'', Follow step s (es.take n) s'' := by
  rw [← List.take_append_drop n es] at h
  obtain ⟨s'', hfront, -⟩ := h.split
  exact ⟨s'', hfront⟩

theorem Follow.still {s : S} {es : List E} (h : ∀ e ∈ es, step s e s) : Follow step s es s := by
  induction es with
  | nil => exact .nil s
  | cons e es ih => exact .cons (h e (.head _)) (ih fun e he => h e (.tail _ he))

theorem Follow.eq_foldl {f : S → E → S} (hstep : ∀ s e s', step s e s' → s' = f s e) {s s' : S}
    {es : List E} (h : Follow step s es s') : s' = es.foldl f s := by
  induction h with
  | nil => rfl
  | cons hone _ ih =>
    rw [List.foldl_cons, ← hstep _ _ _ hone]
    exact ih

/-- The computation keeps to the protocol, and a result it returns is
related to the state it ends in. -/
def Guided (step : S → E → S → Prop) (s : S) (x : Effects E α) (Q : α → S → Prop) : Prop :=
  ∃ s', Follow step s x.events s' ∧ ∀ a, x.result = .ok a → Q a s'

variable {s : S} {x : Effects E α} {Q Q' : α → S → Prop} {R : β → S → Prop}

theorem Guided.imp (h : Guided step s x Q) (himp : ∀ a s', Q a s' → Q' a s') :
    Guided step s x Q' := by
  obtain ⟨s', hfollow, hresult⟩ := h
  exact ⟨s', hfollow, fun a ha => himp a s' (hresult a ha)⟩

theorem Guided.and_result (h : Guided step s x Q) :
    Guided step s x fun a s' => Q a s' ∧ x.result = .ok a := by
  obtain ⟨s', hfollow, hresult⟩ := h
  exact ⟨s', hfollow, fun a ha => ⟨hresult a ha, ha⟩⟩

theorem Guided.still (h : Only (fun e => step s e s) x) :
    Guided step s x fun _ s' => s' = s :=
  ⟨s, .still h, fun _ _ => rfl⟩

theorem Guided.ret {a : α} (h : Q a s) : Guided step s (ret a) Q :=
  ⟨s, .nil s, fun b hb => by cases hb; exact h⟩

theorem Guided.throw (e : String) : Guided step s (throw e : Effects E α) Q :=
  ⟨s, .nil s, fun b hb => by cases hb⟩

theorem Guided.ofExcept {r : Except String α} (h : ∀ a, r = .ok a → Q a s) :
    Guided step s (ofExcept r) Q := by
  cases r with
  | error e => exact .throw e
  | ok a => exact .ret (h a rfl)

theorem Guided.perform {event : E} {s' : S} {Q : Unit → S → Prop} (h : step s event s')
    (hQ : Q () s') : Guided step s (perform event) Q :=
  ⟨s', .cons h (.nil s'), fun _ _ => hQ⟩

theorem Guided.bind {f : α → Effects E β} (h : Guided step s x Q)
    (hf : ∀ a s', Q a s' → Guided step s' (f a) R) : Guided step s (x.bind f) R := by
  obtain ⟨s', hfollow, hresult⟩ := h
  unfold Effects.bind
  cases hx : x.result with
  | error e => exact ⟨s', hfollow, fun b hb => by cases hb⟩
  | ok a =>
    obtain ⟨s'', hnext, hb⟩ := hf a s' (hresult a hx)
    exact ⟨s'', hfollow.append hnext, hb⟩

theorem Guided.each {f : α → Effects E β} {J : List α → S → Prop}
    (hf : ∀ a as s, J (a :: as) s → Guided step s (f a) fun _ s' => J as s') {as : List α}
    (h : J as s) : Guided step s (each f as) fun _ s' => J [] s' := by
  induction as generalizing s with
  | nil => exact .ret h
  | cons a as ih => exact (hf a as s h).bind fun _ _ ha => (ih ha).bind fun _ _ hrest => .ret hrest

/-- When one throws, the others go on. -/
theorem Guided.together {f : α → Effects E β} {J : List α → S → Prop}
    (hf : ∀ a as s, J (a :: as) s → ∃ s', Follow step s (f a).events s' ∧ J as s') {as : List α}
    (h : J as s) : Guided step s (together f as) fun _ s' => J [] s' := by
  have hlist : ∀ (as : List α) (s : S), J as s →
      ∃ s', Follow step s (as.flatMap fun a => (f a).events) s' ∧ J [] s' := by
    intro as
    induction as with
    | nil => exact fun s h => ⟨s, .nil s, h⟩
    | cons a as ih =>
      intro s h
      obtain ⟨s', hfollow, hnext⟩ := hf a as s h
      obtain ⟨s'', hrest, hall⟩ := ih s' hnext
      exact ⟨s'', hfollow.append hrest, hall⟩
  obtain ⟨s', hfollow, hend⟩ := hlist as s h
  exact ⟨s', hfollow, fun _ _ => hend⟩

end

/-! ### Protocols that assume something

An event that does not fit the assumption ends what the protocol says. -/

/-- A protocol under an assumption on the events; `none` when it has been
broken. -/
inductive Assuming (fits : E → Prop) (step : S → E → S → Prop) : Option S → E → Option S → Prop
    where
  | broken (e : E) : Assuming fits step none e none
  | unfit (s : S) {e : E} (h : ¬ fits e) : Assuming fits step (some s) e none
  | step {s s' : S} {e : E} (h : step s e s') : Assuming fits step (some s) e (some s')

section

variable {fits : E → Prop} {step : S → E → S → Prop}

theorem Follow.assuming {s s' : S} {es : List E} (h : Follow step s es s') :
    Follow (Assuming fits step) (some s) es (some s') := by
  induction h with
  | nil => exact .nil _
  | cons hone _ ih => exact .cons (.step hone) ih

/-- Where the assumption holds, the protocol is kept to. -/
theorem Follow.of_fits {s : S} {t : Option S} {es : List E}
    (h : Follow (Assuming fits step) (some s) es t) (hfits : ∀ e ∈ es, fits e) :
    ∃ s', t = some s' ∧ Follow step s es s' := by
  induction es generalizing s with
  | nil =>
    cases h
    exact ⟨s, rfl, .nil s⟩
  | cons e es ih =>
    cases h with
    | cons hone hrest =>
      cases hone with
      | unfit _ hunfit => exact absurd (hfits e (.head _)) hunfit
      | step hstep =>
        obtain ⟨s', rfl, hfollow⟩ := ih hrest fun e he => hfits e (.tail _ he)
        exact ⟨s', rfl, .cons hstep hfollow⟩

theorem follow_broken (es : List E) :
    Follow (Assuming fits step) (none : Option S) es none := .still fun e _ => .broken e

/-- The computation keeps to the protocol as long as the events fit. -/
def Keeps (fits : E → Prop) (step : S → E → S → Prop) (s : S) (x : Effects E α)
    (Q : α → S → Prop) : Prop :=
  Guided (Assuming fits step) (some s) x fun a t => ∀ s', t = some s' → Q a s'

variable {s : S} {x : Effects E α} {Q Q' : α → S → Prop} {R : β → S → Prop}

theorem Guided.keeps (h : Guided step s x Q) : Keeps fits step s x Q := by
  obtain ⟨s', hfollow, hresult⟩ := h
  exact ⟨some s', hfollow.assuming, fun a ha _ hs' => Option.some.inj hs' ▸ hresult a ha⟩

theorem Keeps.ret {a : α} (h : Q a s) : Keeps fits step s (ret a) Q := (Guided.ret h).keeps

theorem Keeps.throw (e : String) : Keeps fits step s (throw e : Effects E α) Q :=
  (Guided.throw e).keeps

theorem Keeps.ofExcept {r : Except String α} (h : ∀ a, r = .ok a → Q a s) :
    Keeps fits step s (ofExcept r) Q := (Guided.ofExcept h).keeps

theorem Keeps.perform {event : E} {Q : Unit → S → Prop}
    (h : fits event → ∃ s', step s event s' ∧ Q () s') :
    Keeps fits step s (perform event) Q := by
  by_cases hfits : fits event
  · obtain ⟨s', hstep, hQ⟩ := h hfits
    exact (Guided.perform hstep hQ).keeps
  · exact Guided.perform (.unfit s hfits) fun _ hs' => nomatch hs'

theorem Keeps.bind {f : α → Effects E β} (h : Keeps fits step s x Q)
    (hf : ∀ a s', Q a s' → Keeps fits step s' (f a) R) : Keeps fits step s (x.bind f) R := by
  refine Guided.bind h fun a t ht => ?_
  cases t with
  | none => exact ⟨none, follow_broken _, fun _ _ _ hs' => nomatch hs'⟩
  | some s' => exact hf a s' (ht s' rfl)

end

end Effects

end Vertz.Lib
