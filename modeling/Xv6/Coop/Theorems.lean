import Xv6.Coop

namespace Xv6

variable {State Point Exit Result Next : Type} {contract : Contract State Point Exit}

variable {post weaker : Result → State → Prop}

namespace Coop

variable {computation last : Coop State Point Exit Result} {rely : Point → State → State → Prop} {start : State}
  {Value : Type}

theorem Meets.mono (h : computation.Meets contract post)
    (hpost : ∀ result state, post result state → weaker result state) : computation.Meets contract weaker := by
  induction computation with
  | done result state => exact hpost result state h
  | leave exit state => exact h
  | pause point state resume ih =>
    exact ⟨h.1, fun next hrely hready => ih next (h.2 next hrely hready)⟩

theorem meets_bind_iff (computation : Coop State Point Exit Result)
    (next : Result → State → Coop State Point Exit Next) (post : Next → State → Prop) :
    (computation.bind next).Meets contract post ↔
      computation.Meets contract (fun result state => (next result state).Meets contract post) := by
  induction computation with
  | done result state => rfl
  | leave exit state => rfl
  | pause point state resume ih => simp only [bind, Meets, ih]

-- A computation that meets its contract ends as the contract says, whatever the
-- others do within its reliance.
theorem Meets.ends (h : computation.Meets contract post) (hrely : ∀ point state next, rely point state next →
      contract.rely point state next ∧ contract.ready point next) (hends : Ends rely computation last) :
    last.Meets contract post := by
  induction hends with
  | done result state => exact h
  | leave exit state => exact h
  | pause point state next resume last hnext _ ih =>
    exact ih (h.2 next (hrely point state next hnext).1 (hrely point state next hnext).2)

theorem Ends.mono {wider : Point → State → State → Prop} (h : Ends rely computation last)
    (hwider : ∀ point state next, rely point state next → wider point state next) : Ends wider computation last := by
  induction h with
  | done result state => exact .done result state
  | leave exit state => exact .leave exit state
  | pause point state next resume last hnext _ ih =>
    exact .pause point state next resume last (hwider point state next hnext) ih

-- Computations are well founded: one that is always resumed comes to an end.
theorem exists_ends (h : computation.Meets contract post) (hserial : ∀ point state, contract.paused point state →
      ∃ next, rely point state next ∧ contract.rely point state next ∧ contract.ready point next) :
    ∃ last, Ends rely computation last := by
  induction computation with
  | done result state => exact ⟨_, .done result state⟩
  | leave exit state => exact ⟨_, .leave exit state⟩
  | pause point state resume ih =>
    obtain ⟨next, hnext, hrely, hready⟩ := hserial point state h.1
    obtain ⟨last, hlast⟩ := ih next (h.2 next hrely hready)
    exact ⟨last, .pause point state next resume last hnext hlast⟩

theorem Ends.final (h : Ends rely computation last) :
    (∃ result state, last = .done result state) ∨ ∃ exit state, last = .leave exit state := by
  induction h with
  | done result state => exact .inl ⟨result, state, rfl⟩
  | leave exit state => exact .inr ⟨exit, state, rfl⟩
  | pause point state next resume last hnext _ ih => exact ih

theorem Fixes.of_eq {field : State → Value} {other : State} (h : computation.Fixes field start)
    (hother : field start = field other) : computation.Fixes field other := by
  cases computation with
  | done result last | leave exit last => exact Eq.trans h hother
  | pause point last resume => exact ⟨h.1.trans hother, h.2⟩

theorem Fixes.bind {field : State → Value} {next : Result → State → Coop State Point Exit Next}
    (h : computation.Fixes field start) (hnext : ∀ result state, (next result state).Fixes field state) :
    (computation.bind next).Fixes field start := by
  induction computation generalizing start with
  | done result last => exact (hnext result last).of_eq h
  | leave exit last => exact h
  | pause point last resume ih => exact ⟨h.1, fun state => ih state (h.2 state)⟩

theorem Fixes.state {field : State → Value} (h : computation.Fixes field start) :
    field computation.state = field start := by
  cases computation with
  | done result last => exact h
  | leave exit last => exact h
  | pause point last resume => exact h.1

end Coop

namespace Program

variable {program : Program State Point Exit Result}

theorem wp_mono {state : State} (h : program.wp contract post state)
    (hpost : ∀ result state, post result state → weaker result state) : program.wp contract weaker state :=
  Coop.Meets.mono h hpost

@[simp] theorem wp_pure (result : Result) (post : Result → State → Prop) (state : State) :
    (pure result : Program State Point Exit Result).wp contract post state ↔ post result state :=
  Iff.rfl

@[simp] theorem wp_bind (program : Program State Point Exit Result)
    (next : Result → Program State Point Exit Next) (post : Next → State → Prop) (state : State) :
    (program >>= next).wp contract post state ↔
      program.wp contract (fun result state => (next result).wp contract post state) state :=
  Coop.meets_bind_iff (program state) next post

@[simp] theorem wp_get (post : State → State → Prop) (state : State) :
    (get : Program State Point Exit State).wp contract post state ↔ post state state :=
  Iff.rfl

@[simp] theorem wp_modify (change : State → State) (post : Unit → State → Prop) (state : State) :
    (modify change : Program State Point Exit Unit).wp contract post state ↔ post () (change state) :=
  Iff.rfl

@[simp] theorem wp_leave (exit : Exit) (post : Result → State → Prop) (state : State) :
    (leave exit : Program State Point Exit Result).wp contract post state ↔ contract.leaves exit state :=
  Iff.rfl

@[simp] theorem wp_pause (point : Point) (post : Unit → State → Prop) (state : State) :
    (pause point : Program State Point Exit Unit).wp contract post state ↔
      contract.paused point state ∧ ∀ next, contract.rely point state next → contract.ready point next → post () next :=
  Iff.rfl

@[simp] theorem wp_ite (condition : Prop) [Decidable condition] (first second : Program State Point Exit Result)
    (post : Result → State → Prop) (state : State) :
    (if condition then first else second).wp contract post state ↔
      if condition then first.wp contract post state else second.wp contract post state := by
  split <;> rfl

-- The loop rule. The invariant speaks of the accumulator, the part of the list
-- still to do and the state.
theorem wp_foldlM {Item : Type} (body : Result → Item → Program State Point Exit Result)
    (invariant : Result → List Item → State → Prop)
    (hbody : ∀ result item rest state, invariant result (item :: rest) state →
      (body result item).wp contract (fun result state => invariant result rest state) state)
    (items : List Item) (start : Result) (state : State) (hstart : invariant start items state) :
    (items.foldlM body start).wp contract (fun result state => invariant result [] state) state := by
  induction items generalizing start state with
  | nil => exact hstart
  | cons item rest ih =>
    rw [List.foldlM_cons, wp_bind]
    exact wp_mono (hbody start item rest state hstart) (fun result state h => ih result state h)

namespace Fixes

variable {Value : Type} {field : State → Value}

theorem pure (result : Result) : (Pure.pure result : Program State Point Exit Result).Fixes field :=
  fun _ => rfl

theorem bind {next : Result → Program State Point Exit Next} (h : program.Fixes field)
    (hnext : ∀ result, (next result).Fixes field) : (program >>= next).Fixes field :=
  fun state => (h state).bind hnext

theorem get : (Program.get : Program State Point Exit State).Fixes field := fun _ => rfl

theorem modify {change : State → State} (h : ∀ state, field (change state) = field state) :
    (Program.modify change : Program State Point Exit Unit).Fixes field :=
  h

theorem leave (exit : Exit) : (Program.leave exit : Program State Point Exit Result).Fixes field := fun _ => rfl

theorem pause (point : Point) : (Program.pause point : Program State Point Exit Unit).Fixes field :=
  fun _ => ⟨rfl, fun _ => rfl⟩

theorem ite {condition : Prop} [Decidable condition] {first second : Program State Point Exit Result}
    (hfirst : first.Fixes field) (hsecond : second.Fixes field) :
    (if condition then first else second).Fixes field := by
  split
  · exact hfirst
  · exact hsecond

theorem foldlM {Item : Type} {body : Result → Item → Program State Point Exit Result}
    (hbody : ∀ result item, (body result item).Fixes field) (items : List Item) (start : Result) :
    (items.foldlM body start).Fixes field := by
  induction items generalizing start with
  | nil => exact .pure start
  | cons item rest ih =>
    rw [List.foldlM_cons]
    exact (hbody start item).bind ih

end Fixes

end Program

end Xv6
