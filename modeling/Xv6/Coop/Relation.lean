import Xv6.Coop

namespace Xv6

variable {State Point Exit Result Other Next Last : Type}
variable {alike : State → State → Prop} {exits : Exit → Exit → Prop}

-- Two computations that do the same from states that are alike: they stop at the same
-- points, leave in the same way, and return results that correspond.
def Coop.Alike (alike : State → State → Prop) (exits : Exit → Exit → Prop) (results : Result → Other → Prop) :
    Coop State Point Exit Result → Coop State Point Exit Other → Prop
  | done result state, done other state' => results result other ∧ alike state state'
  | leave exit state, leave exit' state' => exits exit exit' ∧ alike state state'
  | pause point state resume, pause point' state' resume' => point = point' ∧ alike state state' ∧
      ∀ next next', alike next next' → (resume next).Alike alike exits results (resume' next')
  | _, _ => False

variable {results : Result → Other → Prop} {finals : Next → Last → Prop}

theorem Coop.Alike.bind {first : Coop State Point Exit Result} {second : Coop State Point Exit Other}
    {next : Result → State → Coop State Point Exit Next} {next' : Other → State → Coop State Point Exit Last}
    (h : first.Alike alike exits results second)
    (hnext : ∀ result other state state', results result other → alike state state' →
      (next result state).Alike alike exits finals (next' other state')) :
    (first.bind next).Alike alike exits finals (second.bind next') := by
  induction first generalizing second with
  | done result state =>
    cases second with
    | done other state' => exact hnext result other state state' h.1 h.2
    | leave exit state' => exact h.elim
    | pause point state' resume => exact h.elim
  | leave exit state =>
    cases second with
    | done other state' => exact h.elim
    | leave exit' state' => exact h
    | pause point state' resume => exact h.elim
  | pause point state resume ih =>
    cases second with
    | done other state' => exact h.elim
    | leave exit state' => exact h.elim
    | pause point' state' resume' =>
      obtain ⟨hpoint, hstate, hresume⟩ := h
      exact ⟨hpoint, hstate, fun state state' halike => ih state (hresume state state' halike)⟩

def Program.Alike (alike : State → State → Prop) (exits : Exit → Exit → Prop) (results : Result → Other → Prop)
    (first : Program State Point Exit Result) (second : Program State Point Exit Other) : Prop :=
  ∀ state state', alike state state' → (first state).Alike alike exits results (second state')

namespace Program.Alike

theorem pure {result : Result} {other : Other} (h : results result other) :
    (Pure.pure result : Program State Point Exit Result).Alike alike exits results (Pure.pure other) :=
  fun _ _ hstate => ⟨h, hstate⟩

variable {first : Program State Point Exit Result}

theorem bind {second : Program State Point Exit Other} {next : Result → Program State Point Exit Next}
    {next' : Other → Program State Point Exit Last} (h : first.Alike alike exits results second)
    (hnext : ∀ result other, results result other → (next result).Alike alike exits finals (next' other)) :
    (first >>= next).Alike alike exits finals (second >>= next') :=
  fun state state' hstate => (h state state' hstate).bind
    fun result other state state' hresult => hnext result other hresult state state'

theorem get : (Program.get : Program State Point Exit State).Alike alike exits alike Program.get :=
  fun _ _ hstate => ⟨hstate, hstate⟩

theorem modify {change change' : State → State} (h : ∀ state state', alike state state' →
      alike (change state) (change' state')) :
    (Program.modify change : Program State Point Exit Unit).Alike alike exits Eq (Program.modify change') :=
  fun state state' hstate => ⟨rfl, h state state' hstate⟩

theorem leave {exit exit' : Exit} (h : exits exit exit') :
    (Program.leave exit : Program State Point Exit Result).Alike alike exits results (Program.leave exit') :=
  fun _ _ hstate => ⟨h, hstate⟩

theorem pause (point : Point) :
    (Program.pause point : Program State Point Exit Unit).Alike alike exits Eq (Program.pause point) :=
  fun _ _ hstate => ⟨rfl, hstate, fun _ _ hnext => ⟨rfl, hnext⟩⟩

theorem ite {condition condition' : Prop} [Decidable condition] [Decidable condition']
    {second : Program State Point Exit Result} {first' second' : Program State Point Exit Other}
    (hcondition : condition ↔ condition') (hfirst : first.Alike alike exits results first')
    (hsecond : second.Alike alike exits results second') :
    (if condition then first else second).Alike alike exits results (if condition' then first' else second') := by
  by_cases h : condition
  · rw [if_pos h, if_pos (hcondition.mp h)]
    exact hfirst
  · rw [if_neg h, if_neg (fun h' => h (hcondition.mpr h'))]
    exact hsecond

theorem foldlM {Item : Type} {body body' : Result → Item → Program State Point Exit Result}
    (hbody : ∀ result item, (body result item).Alike alike exits Eq (body' result item)) (items : List Item)
    (start : Result) : (items.foldlM body start).Alike alike exits Eq (items.foldlM body' start) := by
  induction items generalizing start with
  | nil => exact .pure rfl
  | cons item rest ih =>
    rw [List.foldlM_cons, List.foldlM_cons]
    refine (hbody start item).bind ?_
    rintro result _ rfl
    exact ih result

end Program.Alike

end Xv6
