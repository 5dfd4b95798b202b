import Xv6.Bio
import Xv6.Cycle

namespace Xv6

open Function List

-- A pointer to a buffer of bcache.buf, or to bcache.head.
abbrev BufPtr := Option (Fin NBUF)

-- The links of the buffers as bio.c has them. The last two fields are not in the source: how many times a
-- reference count has dropped to zero, and at which of these times the one of each buffer last did.
structure Bcache (Data : Type) where
  next : BufPtr → BufPtr
  prev : BufPtr → BufPtr
  buf : Fin NBUF → Buf Data
  refcnt : Fin NBUF → Nat
  clock : Nat
  released : Fin NBUF → Nat

-- What callers of bread do with a buffer, iderw and log_write among them, leaves dev and blockno.
inductive BcacheCall (Data : Type) where
  | bget (dev blockno : Word)
  | brelse (b : Fin NBUF)
  | change (b : Fin NBUF) (valid dirty : Bool) (data : Data)

def BcacheCall.releases {Data : Type} : BcacheCall Data → Option (Fin NBUF)
  | .brelse b => some b
  | _ => none

namespace Bcache

variable {Data : Type}

section

variable (bcache : Bcache Data) (b : Fin NBUF)

def setBuf (buf : Buf Data) : Bcache Data :=
  { bcache with buf := update bcache.buf b buf }

def setRefcnt (refcnt : Nat) : Bcache Data :=
  { bcache with refcnt := update bcache.refcnt b refcnt }

def unlink : Bcache Data :=
  { bcache with
    prev := update bcache.prev (bcache.next (some b)) (bcache.prev (some b))
    next := update bcache.next (bcache.prev (some b)) (bcache.next (some b)) }

def push : Bcache Data :=
  { bcache with
    next := update (update bcache.next (some b) (bcache.next none)) none (some b)
    prev := update (update bcache.prev (some b) none) (bcache.next none) (some b) }

end

-- The buffers are zero, and head is linked to itself.
def empty (data : Data) : Bcache Data where
  next _ := none
  prev _ := none
  buf _ := ⟨false, false, 0, 0, data⟩
  refcnt _ := 0
  clock := 0
  released _ := 0

def binit (data : Data) : Bcache Data := (List.finRange NBUF).foldl push (empty data)

def caches (bcache : Bcache Data) (dev blockno : Word) (b : Fin NBUF) : Bool :=
  (bcache.buf b).dev = dev ∧ (bcache.buf b).blockno = blockno

def unused (bcache : Bcache Data) (b : Fin NBUF) : Bool := bcache.refcnt b = 0 ∧ (bcache.buf b).dirty = false

-- A loop of bget: it ends at such a buffer, or at bcache.head. No result is a loop that goes on.
def search (links : BufPtr → BufPtr) (test : Fin NBUF → Bool) : Option BufPtr :=
  follow links (·.all test) (NBUF + 1) (links none)

def bget (bcache : Bcache Data) (dev blockno : Word) : Option (Except BioPanic (Bcache Data × Fin NBUF)) :=
  (search bcache.next (bcache.caches dev blockno)).bind fun
    | some b => some (.ok (bcache.setRefcnt b (bcache.refcnt b + 1), b))
    | none => (search bcache.prev bcache.unused).map fun
      | some b =>
        .ok ((bcache.setBuf b { bcache.buf b with dev, blockno, valid := false, dirty := false }).setRefcnt b 1, b)
      | none => .error .noBuffers

-- After releasesleep.
def brelse (bcache : Bcache Data) (b : Fin NBUF) : Bcache Data :=
  let released := bcache.setRefcnt b (bcache.refcnt b - 1)
  if bcache.refcnt b - 1 = 0 then
    { (released.unlink b).push b with
      clock := bcache.clock + 1
      released := update bcache.released b (bcache.clock + 1) }
  else released

def step (bcache : Bcache Data) : BcacheCall Data → Option (Bcache Data)
  | .bget dev blockno =>
    match bcache.bget dev blockno with
    | some (.ok (bcache, _)) => some bcache
    | _ => none
  | .brelse b => some (bcache.brelse b)
  | .change b valid dirty data => some (bcache.setBuf b { bcache.buf b with valid, dirty, data })

-- Only who has a buffer releases it.
abbrev Respects (bcache : Bcache Data) (call : BcacheCall Data) : Prop :=
  ∀ b ∈ call.releases, 0 < bcache.refcnt b

-- The buffers are listed once each, the last released first.
structure Lists (bcache : Bcache Data) (order : List (Fin NBUF)) : Prop where
  round : Round bcache.next bcache.prev none (order.map some)
  all (b : Fin NBUF) : b ∈ order
  sorted : order.Pairwise fun b later => bcache.released later ≤ bcache.released b
  clock (b : Fin NBUF) : bcache.released b ≤ bcache.clock

variable {bcache : Bcache Data} {order : List (Fin NBUF)} {b : Fin NBUF}

theorem Lists.nodup (h : Lists bcache order) : order.Nodup := (List.nodup_cons.mp h.round.nodup).2.of_map some

theorem Lists.length_le (h : Lists bcache order) : order.length ≤ NBUF := by
  simpa using h.nodup.length_le_card

theorem search_eq {links : BufPtr → BufPtr} (hlinks : Circular links none (order.map some))
    (hlength : order.length ≤ NBUF) (test : Fin NBUF → Bool) : search links test = some (order.find? test) := by
  unfold search
  have hpath : Linked links (none :: (order.map some ++ [none])) := hlinks
  rw [follow_find hpath ⟨none, by simp, rfl⟩ (by simpa using hlength), List.find?_append, List.find?_map]
  change ((order.find? test).map some).or _ = _
  cases order.find? test <;> simp

theorem Lists.bget (h : Lists bcache order) (dev blockno : Word) :
    bcache.bget dev blockno = some (match order.find? (bcache.caches dev blockno) with
      | some b => .ok (bcache.setRefcnt b (bcache.refcnt b + 1), b)
      | none =>
        match order.reverse.find? bcache.unused with
        | some b =>
          .ok ((bcache.setBuf b { bcache.buf b with dev, blockno, valid := false, dirty := false }).setRefcnt b 1, b)
        | none => .error .noBuffers) := by
  unfold Bcache.bget
  have hprev := h.round.circular_prev
  rw [← map_reverse] at hprev
  rw [search_eq h.round.circular h.length_le, search_eq hprev (by simpa using h.length_le)]
  cases order.find? (bcache.caches dev blockno) <;> cases order.reverse.find? bcache.unused <;> rfl

-- The list of Bio stands for the links.
theorem Lists.bget_bio {Process : Type} [DecidableEq Process] {bio : Bio Process Data} (h : Lists bcache bio.head)
    (hbuf : bcache.buf = bio.buf) (hrefcnt : bcache.refcnt = bio.refcnt) (dev blockno : Word) :
    (bcache.bget dev blockno).map (·.toOption.map Prod.snd) = some ((bio.bget dev blockno).map Prod.snd) := by
  rw [h.bget]
  unfold Bio.bget caches unused
  rw [hbuf, hrefcnt]
  cases bio.head.find? fun b => (bio.buf b).dev = dev ∧ (bio.buf b).blockno = blockno with
  | some b => rfl
  | none => cases bio.head.reverse.find? fun b => bio.refcnt b = 0 ∧ (bio.buf b).dirty = false <;> rfl

variable {next : Bcache Data}

theorem Lists.of_eq (h : Lists bcache order) (hnext : next.next = bcache.next) (hprev : next.prev = bcache.prev)
    (hclock : next.clock = bcache.clock) (hreleased : next.released = bcache.released) : Lists next order := by
  constructor
  · rw [hnext, hprev]
    exact h.round
  · exact h.all
  · rw [hreleased]
    exact h.sorted
  · rw [hreleased, hclock]
    exact h.clock

-- The buffer goes to the front, as Bio has it.
theorem Lists.brelse (h : Lists bcache order) (b : Fin NBUF) :
    Lists (bcache.brelse b) (if bcache.refcnt b - 1 = 0 then b :: order.erase b else order) := by
  unfold Bcache.brelse
  split
  · obtain ⟨before, after, -, rfl, herase⟩ := exists_erase_eq (h.all b)
    rw [herase]
    have hround := h.round
    rw [map_append, map_cons] at hround
    have hnot : b ∉ before ++ after := by
      have hnodup := nodup_middle.mp h.nodup
      exact (nodup_cons.mp hnodup).1
    have hold (other : Fin NBUF) (hother : other ∈ before ++ after) :
        update bcache.released b (bcache.clock + 1) other = bcache.released other :=
      update_of_ne (ne_of_mem_of_not_mem hother hnot) ..
    have hnew : update bcache.released b (bcache.clock + 1) b = bcache.clock + 1 := update_self ..
    constructor
    · have hfree : some b ∉ none :: (before.map some ++ after.map some) := by simpa using hnot
      have hpush := hround.unlink.push hfree
      rwa [← map_append, ← map_cons] at hpush
    · intro other
      have hother := h.all other
      simp only [mem_append, mem_cons] at hother ⊢
      tauto
    · refine pairwise_cons.mpr ⟨?_, ?_⟩
      · intro other hother
        exact ((hold other hother).le.trans (h.clock other)).trans ((Nat.le_succ _).trans hnew.ge)
      · have hsub : List.Sublist (before ++ after) (before ++ b :: after) := by simp
        refine (h.sorted.sublist hsub).imp_of_mem ?_
        intro one two hone htwo hle
        exact ((hold two htwo).le.trans hle).trans (hold one hone).ge
    · intro other
      show update bcache.released b (bcache.clock + 1) other ≤ bcache.clock + 1
      rw [update_apply]
      split
      · exact le_rfl
      · exact (h.clock other).trans (Nat.le_succ _)
  · exact h.of_eq rfl rfl rfl rfl

theorem Lists.step {call : BcacheCall Data} (h : Lists bcache order) (hstep : bcache.step call = some next) :
    ∃ order, Lists next order := by
  cases call with
  | brelse b =>
    obtain rfl := Option.some.inj hstep
    exact ⟨_, h.brelse b⟩
  | change b valid dirty data =>
    obtain rfl := Option.some.inj hstep
    exact ⟨order, h.of_eq rfl rfl rfl rfl⟩
  | bget dev blockno =>
    simp only [Bcache.step, h.bget] at hstep
    cases hcached : order.find? (bcache.caches dev blockno) with
    | some b =>
      rw [hcached] at hstep
      obtain rfl := Option.some.inj hstep
      exact ⟨order, h.of_eq rfl rfl rfl rfl⟩
    | none =>
      rw [hcached] at hstep
      cases hunused : order.reverse.find? bcache.unused with
      | none => simp [hunused] at hstep
      | some b =>
        rw [hunused] at hstep
        obtain rfl := Option.some.inj hstep
        exact ⟨order, h.of_eq rfl rfl rfl rfl⟩

-- Each turn of the loop puts one more buffer in front.
theorem foldl_push (todo done : List (Fin NBUF)) (bcache : Bcache Data)
    (hnodup : (todo.reverse ++ done).Nodup) (hround : Round bcache.next bcache.prev none (done.map some)) :
    Round (todo.foldl push bcache).next (todo.foldl push bcache).prev none ((todo.reverse ++ done).map some) ∧
      (todo.foldl push bcache).released = bcache.released := by
  induction todo generalizing done bcache with
  | nil => exact ⟨hround, rfl⟩
  | cons b todo ih =>
    rw [reverse_cons, append_assoc, singleton_append] at hnodup ⊢
    have hnot : b ∉ done := by
      have hdone : (b :: done).Nodup := hnodup.sublist (sublist_append_right ..)
      exact (nodup_cons.mp hdone).1
    exact ih _ _ hnodup (hround.push (by simpa using hnot))

theorem binit_lists (data : Data) : Lists (binit data) (List.finRange NBUF).reverse := by
  have hnodup : ((List.finRange NBUF).reverse ++ []).Nodup := by simpa using nodup_finRange NBUF
  obtain ⟨hround, hreleased⟩ := foldl_push _ [] (empty data) hnodup ⟨by simp [empty], by simp⟩
  rw [append_nil] at hround
  have hzero (b : Fin NBUF) : (binit data).released b = 0 := congrFun hreleased b
  refine ⟨hround, by simp, ?_, fun b => (hzero b).le.trans (Nat.zero_le _)⟩
  refine pairwise_of_forall fun one two => ?_
  rw [hzero, hzero]

theorem Lists.recycles (h : Lists bcache order) {dev blockno : Word}
    (hbget : bcache.bget dev blockno = some (.ok (next, b))) (hnot : ∀ other, bcache.caches dev blockno other = false) :
    bcache.unused b ∧ ∀ other, bcache.unused other → bcache.released b ≤ bcache.released other := by
  have hcached : order.find? (bcache.caches dev blockno) = none := by simpa using fun b _ => hnot b
  rw [h.bget, hcached] at hbget
  cases hunused : order.reverse.find? bcache.unused with
  | none => simp [hunused] at hbget
  | some found =>
    simp only [hunused, Option.some.injEq, Except.ok.injEq, Prod.mk.injEq] at hbget
    obtain ⟨-, rfl⟩ := hbget
    obtain ⟨hfound, before, after, heq, hbefore⟩ := List.find?_eq_some_iff_append.mp hunused
    refine ⟨hfound, ?_⟩
    intro other hother
    have hmem : other ∈ order.reverse := mem_reverse.mpr (h.all other)
    have hsorted := pairwise_reverse.mpr h.sorted
    rw [heq] at hmem hsorted
    rcases mem_append.mp hmem with hmem | hmem
    · have hnot := hbefore other hmem
      rw [hother] at hnot
      exact absurd hnot (by decide)
    · rcases mem_cons.mp hmem with rfl | hmem
      · exact le_rfl
      · exact (pairwise_cons.mp (pairwise_append.mp hsorted).2.1).1 other hmem

theorem bcache_lru (data : Data) (h : Reach step Respects (· = binit data) bcache) :
    ∃ order : List (Fin NBUF), order.Nodup ∧ (∀ b, b ∈ order) ∧ Circular bcache.next none (order.map some) ∧
      Circular bcache.prev none (order.reverse.map some) ∧
      order.Pairwise (fun b later => bcache.released later ≤ bcache.released b) ∧
      ∀ dev blockno, (bcache.bget dev blockno).isSome ∧
        ∀ next b, bcache.bget dev blockno = some (.ok (next, b)) → (∀ other, bcache.caches dev blockno other = false) →
          bcache.unused b ∧ ∀ other, bcache.unused other → bcache.released b ≤ bcache.released other := by
  have hlists : ∃ order, Lists bcache order := by
    refine h.invariant (fun bcache => ∃ order, Lists bcache order) ?_ ?_
    · rintro _ rfl
      exact ⟨_, binit_lists data⟩
    · intro bcache next call hlists _ hstep
      obtain ⟨order, hlists⟩ := hlists
      exact hlists.step hstep
  obtain ⟨order, hlists⟩ := hlists
  refine ⟨order, hlists.nodup, hlists.all, hlists.round.circular, ?_, hlists.sorted, ?_⟩
  · rw [map_reverse]
    exact hlists.round.circular_prev
  · intro dev blockno
    refine ⟨?_, fun next b hbget hnot => hlists.recycles hbget hnot⟩
    rw [hlists.bget]
    rfl

theorem bcache_lru_released :
    ∃ bcache : Bcache Unit, bcache.clock = 1 ∧ ∃ order : List (Fin NBUF),
      order.Nodup ∧ Circular bcache.next none (order.map some) := by
  have hrun : (run step Respects (binit ()) [.bget 1 1, .brelse ⟨0, by decide⟩]).map (·.clock) = some 1 := by
    decide +kernel
  obtain ⟨bcache, hrun, hclock⟩ := Option.map_eq_some_iff.mp hrun
  have hstart : Reach step Respects (· = binit ()) (binit ()) := .start _ rfl
  obtain ⟨order, hnodup, -, hnext, -⟩ := bcache_lru () (hstart.run _ hrun)
  exact ⟨bcache, hclock, order, hnodup, hnext⟩

end Bcache

end Xv6
