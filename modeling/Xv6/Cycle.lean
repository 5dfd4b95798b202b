import Mathlib.Data.List.Chain
import Mathlib.Data.List.Nodup
import Mathlib.Logic.Function.Basic

namespace Xv6

open Function List

variable {Node : Type} {next : Node → Node}

-- Each node is followed by its successor.
abbrev Linked (next : Node → Node) (nodes : List Node) : Prop := nodes.IsChain fun node other => next node = other

-- Go from node to node until this holds.
def follow (next : Node → Node) (stop : Node → Bool) : Nat → Node → Option Node
  | 0, _ => none
  | turns + 1, node => if stop node then some node else follow next stop turns (next node)

variable {stop : Node → Bool} {path nodes : List Node} {node : Node} {turns : Nat}

theorem follow_isSome (hpath : Linked next (node :: path)) (hstop : ∃ other ∈ node :: path, stop other)
    (hturns : path.length < turns) : (follow next stop turns node).isSome := by
  induction turns generalizing node path with
  | zero => omega
  | succ turns ih =>
    rw [follow]
    split_ifs with hnode
    · rfl
    · obtain ⟨other, hother, hstops⟩ := hstop
      cases path with
      | nil =>
        obtain rfl := mem_singleton.mp hother
        exact absurd hstops hnode
      | cons second rest =>
        obtain ⟨hnext, hrest⟩ := isChain_cons_cons.mp hpath
        have hother : other ∈ second :: rest := by
          rcases mem_cons.mp hother with rfl | hother
          · exact absurd hstops hnode
          · exact hother
        rw [hnext]
        simp only [length_cons] at hturns
        exact ih hrest ⟨other, hother, hstops⟩ (by omega)

-- From a node along the path behind it.
theorem follow_find (hpath : Linked next (node :: path)) (hstop : ∃ other ∈ path, stop other)
    (hturns : path.length ≤ turns) : follow next stop turns (next node) = path.find? stop := by
  induction path generalizing node turns with
  | nil => simp at hstop
  | cons second rest ih =>
    obtain ⟨rfl, hrest⟩ := isChain_cons_cons.mp hpath
    obtain ⟨turns, rfl⟩ := Nat.exists_eq_add_of_le' (Nat.one_le_of_lt hturns)
    rw [follow, List.find?_cons]
    split
    · next hnode => rw [hnode]
    · next hnode =>
      rw [Bool.not_eq_true] at hnode
      rw [hnode]
      refine ih hrest ?_ (by simpa using hturns)
      simpa [hnode] using hstop

theorem follow_some {last : Node} {inside : Node → Prop} (hfollow : follow next stop turns node = some last)
    (hnext : ∀ node, inside node → inside (next node)) (hnode : inside node) : inside last ∧ stop last := by
  induction turns generalizing node with
  | zero => exact absurd hfollow (by simp [follow])
  | succ turns ih =>
    rw [follow] at hfollow
    split_ifs at hfollow with hstop
    · obtain rfl := Option.some.inj hfollow
      exact ⟨hnode, hstop⟩
    · exact ih hfollow (hnext node hnode)

-- No link leaves the last node.
theorem isChain_of_dropLast {one two : Node → Node → Prop} (h : nodes.IsChain one)
    (hsame : ∀ node ∈ nodes.dropLast, ∀ other, one node other → two node other) : nodes.IsChain two := by
  induction nodes with
  | nil => exact .nil
  | cons first rest ih =>
    cases rest with
    | nil => exact isChain_singleton _
    | cons second rest =>
      obtain ⟨hfirst, hrest⟩ := isChain_cons_cons.mp h
      rw [dropLast_cons_cons] at hsame
      refine isChain_cons_cons.mpr ⟨hsame first mem_cons_self second hfirst, ih hrest ?_⟩
      intro node hnode
      exact hsame node (mem_cons_of_mem _ hnode)

section Cycle

variable {first node : Node} {rest : List Node}

-- The nodes go round in a circle.
abbrev Circular (next : Node → Node) (first : Node) (rest : List Node) : Prop :=
  Linked next (first :: rest ++ [first])

theorem Circular.next_mem (h : Circular next first rest) (hnode : node ∈ first :: rest) :
    next node ∈ first :: rest := by
  obtain ⟨before, after, heq⟩ := append_of_mem hnode
  have hsplit : Linked next (before ++ node :: (after ++ [first])) := by
    have h : Linked next (first :: rest ++ [first]) := h
    rwa [heq, append_assoc, cons_append] at h
  have hrest := (isChain_split.mp hsplit).2
  cases after with
  | nil =>
    obtain ⟨hnext, -⟩ := isChain_cons_cons.mp hrest
    rw [hnext]
    exact mem_cons_self
  | cons second after =>
    obtain ⟨hnext, -⟩ := isChain_cons_cons.mp hrest
    rw [hnext, heq]
    simp

-- Once around, from a node back to itself.
theorem Circular.around (h : Circular next first rest) {before after : List Node}
    (heq : first :: rest = before ++ node :: after) : Linked next (node :: after ++ before ++ [node]) := by
  have hsplit : Linked next (before ++ node :: (after ++ [first])) := by
    have h : Linked next (first :: rest ++ [first]) := h
    rwa [heq, append_assoc, cons_append] at h
  obtain ⟨hbefore, hafter⟩ := isChain_split.mp hsplit
  cases before with
  | nil =>
    obtain ⟨rfl, rfl⟩ := cons.inj heq
    simpa using hafter
  | cons other before =>
    obtain ⟨rfl, -⟩ := cons.inj heq
    have hpath : Linked next (node :: after ++ [first] ++ (before ++ [node])) :=
      List.IsChain.append_overlap (by simpa using hafter) (by simpa using hbefore) (by simp)
    simpa using hpath

end Cycle

section Doubly

variable {prev : Node → Node} {first node : Node} {before after rest : List Node}

-- Each node is linked to its successor in both directions.
abbrev Links (next prev : Node → Node) (nodes : List Node) : Prop :=
  nodes.IsChain fun node other => next node = other ∧ prev other = node

-- A circular list that has no node twice.
structure Round (next prev : Node → Node) (first : Node) (rest : List Node) : Prop where
  links : Links next prev (first :: rest ++ [first])
  nodup : (first :: rest).Nodup

theorem Round.circular (h : Round next prev first rest) : Circular next first rest := h.links.imp fun _ _ h => h.1

theorem Round.circular_prev (h : Round next prev first rest) : Circular prev first rest.reverse := by
  have hprev : (first :: rest ++ [first]).IsChain fun node other => prev other = node := h.links.imp fun _ _ h => h.2
  have hreverse := isChain_reverse.mpr hprev
  have hlist : (first :: rest ++ [first]).reverse = first :: rest.reverse ++ [first] := by simp
  rw [hlist] at hreverse
  exact hreverse

theorem exists_second (h : (first :: rest).Nodup) :
    ∃ second last, rest ++ [first] = second :: last ∧ rest = (second :: last).dropLast ∧ second ∉ last := by
  obtain ⟨second, last, heq⟩ := exists_cons_of_ne_nil (l := rest ++ [first]) (by simp)
  have hnodup : (second :: last).Nodup := heq ▸ (perm_append_singleton first rest).nodup_iff.mpr h
  exact ⟨second, last, heq, by rw [← heq, dropLast_concat], (nodup_cons.mp hnodup).1⟩

variable [DecidableEq Node]

theorem Links.update {left right : Node} (h : Links next prev nodes) (hleft : left ∉ nodes.dropLast)
    (hright : right ∉ nodes.tail) (node other : Node) :
    Links (update next left node) (update prev right other) nodes := by
  induction nodes with
  | nil => exact .nil
  | cons first rest ih =>
    cases rest with
    | nil => exact isChain_singleton _
    | cons second rest =>
      obtain ⟨⟨hfirst, hsecond⟩, hrest⟩ := isChain_cons_cons.mp h
      simp only [dropLast_cons_cons, tail_cons, mem_cons, not_or] at hleft hright
      rw [← ne_eq, ne_comm] at hleft hright
      refine isChain_cons_cons.mpr ⟨⟨?_, ?_⟩, ih hrest hleft.2 hright.2⟩
      · rw [update_of_ne hleft.1, hfirst]
      · rw [update_of_ne hright.1, hsecond]

-- The neighbours of the node are linked to each other. One of them, or both, may be the first node.
theorem Round.unlink (h : Round next prev first (before ++ node :: after)) :
    Round (update next (prev node) (next node)) (update prev (next node) (prev node)) first
      (before ++ after) := by
  have hrest : (first :: before ++ after).Nodup := h.nodup.sublist (by simp)
  have hafter : (first :: after).Nodup := hrest.sublist (by simp)
  obtain ⟨start, left, hleft⟩ : ∃ start left, first :: before = start ++ [left] :=
    ⟨_, _, (dropLast_append_getLast (cons_ne_nil first before)).symm⟩
  obtain ⟨right, last, hright, hlast, hnot⟩ := exists_second hafter
  have hring : first :: (before ++ node :: after) ++ [first] = start ++ left :: node :: right :: last := by
    rw [← cons_append, hleft]
    simp [hright]
  obtain ⟨hstart, hend⟩ := isChain_split.mp (hring ▸ h.links)
  obtain ⟨⟨-, hprev⟩, hend⟩ := isChain_cons_cons.mp hend
  obtain ⟨⟨hnext, -⟩, hend⟩ := isChain_cons_cons.mp hend
  rw [hnext, hprev]
  have hapart := disjoint_of_nodup_append hrest
  refine ⟨?_, hrest⟩
  rw [← cons_append, hleft, append_assoc, append_assoc, hright]
  refine isChain_split.mpr ⟨Links.update hstart ?_ ?_ .., isChain_cons_cons.mpr
    ⟨⟨update_self .., update_self ..⟩, Links.update hend ?_ hnot ..⟩⟩
  · have hnodup : (start ++ [left]).Nodup := hleft ▸ hrest.sublist (by simp)
    rw [dropLast_concat]
    exact fun hmem => disjoint_of_nodup_append hnodup hmem mem_cons_self
  · rw [← hleft, tail_cons]
    intro hbefore
    have hmem : right ∈ after ++ [first] := hright ▸ mem_cons_self
    rcases mem_append.mp hmem with hmem | hmem
    · exact hapart (mem_cons_of_mem _ hbefore) hmem
    · rw [mem_singleton.mp hmem] at hbefore
      exact (nodup_cons.mp hrest).1 (mem_append_left _ hbefore)
  · rw [← hlast]
    exact fun hmem => hapart (by simp [hleft]) hmem

-- The node is put behind the first one.
theorem Round.push (h : Round next prev first rest) (hnode : node ∉ first :: rest) :
    Round (update (update next node (next first)) first node)
      (update (update prev node first) (next first) node) first (node :: rest) := by
  obtain ⟨second, last, heq, hrest, hlast⟩ := exists_second h.nodup
  have hlinks : Links next prev (first :: second :: last) := heq ▸ h.links
  obtain ⟨⟨hnext, -⟩, hend⟩ := isChain_cons_cons.mp hlinks
  have hnot : node ∉ second :: last := by
    intro hmem
    rw [← heq] at hmem
    exact hnode (by simpa [or_comm] using hmem)
  rw [hnext]
  constructor
  · rw [cons_append, cons_append, heq]
    have hold := Links.update hend (fun hmem => hnot (dropLast_subset _ hmem))
      (fun hmem => hnot (mem_cons_of_mem _ hmem)) second first
    refine isChain_cons_cons.mpr ⟨⟨update_self .., ?_⟩, isChain_cons_cons.mpr
      ⟨⟨?_, update_self ..⟩, Links.update hold ?_ hlast ..⟩⟩
    · rw [update_of_ne (ne_of_not_mem_cons hnot), update_self]
    · rw [update_of_ne (ne_of_not_mem_cons hnode), update_self]
    · rw [← hrest]
      exact (nodup_cons.mp h.nodup).1
  · rw [(List.Perm.swap node first rest).nodup_iff]
    exact nodup_cons.mpr ⟨hnode, h.nodup⟩

end Doubly

end Xv6
