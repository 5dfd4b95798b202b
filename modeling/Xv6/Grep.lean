import Xv6.Memory
import Mathlib.Computability.Language

namespace Xv6.Grep

open scoped Computability

def caret : Byte := BitVec.ofNat 8 '^'.toNat

def star : Byte := BitVec.ofNat 8 '*'.toNat

def dollar : Byte := BitVec.ofNat 8 '$'.toNat

def dot : Byte := BitVec.ofNat 8 '.'.toNat

def newline : Byte := BitVec.ofNat 8 '\n'.toNat

-- A string is the list of the characters before its NUL. `here` is `matchhere` on the pattern after
-- the star.
def matchstar (c : Byte) (here : List Byte → Bool) : List Byte → Bool
  | [] => here []
  | t :: text => here (t :: text) || ((t = c || c = dot) && matchstar c here text)

-- The last test of `matchhere`, with the pattern after the character in `here`.
def matchone (c : Byte) (here : List Byte → Bool) : List Byte → Bool
  | [] => false
  | t :: text => (c = dot || c = t) && here text

def matchhere : List Byte → List Byte → Bool
  | [], _ => true
  | [c], text => if c = dollar then text.isEmpty else matchone c (matchhere []) text
  | c :: d :: re, text =>
    if d = star then matchstar c (matchhere re) text else matchone c (matchhere (d :: re)) text

-- The do loop of `match`.
def matchanywhere (re : List Byte) : List Byte → Bool
  | [] => matchhere re []
  | t :: text => matchhere re (t :: text) || matchanywhere re text

def matchtext (re text : List Byte) : Bool :=
  if re.head? = some caret then matchhere re.tail text else matchanywhere re text

section Language

variable {c t : Byte} {re text : List Byte}

inductive Item where
  | one (c : Byte)
  | star (c : Byte)

-- The items of a pattern, and whether it ends with the anchor.
def items : List Byte → List Item × Bool
  | [] => ([], false)
  | [c] => if c = dollar then ([], true) else ([.one c], false)
  | c :: d :: re =>
    if d = star then (.star c :: (items re).1, (items re).2)
    else (.one c :: (items (d :: re)).1, (items (d :: re)).2)

def single (c : Byte) : Language Byte := {w | ∃ t, w = [t] ∧ (c = dot ∨ c = t)}

def Item.language : Item → Language Byte
  | .one c => single c
  | .star c => (single c)∗

def language (its : List Item) : Language Byte := (its.map Item.language).prod

-- A prefix of `text` is in the language of the pattern, and all of it if the pattern is anchored.
def Starts (re text : List Byte) : Prop :=
  ∃ w post, text = w ++ post ∧ w ∈ language (items re).1 ∧ ((items re).2 = true → post = [])

theorem cons_mem_star (c t : Byte) (w : List Byte) : t :: w ∈ (single c)∗ ↔ (c = dot ∨ c = t) ∧ w ∈ (single c)∗ := by
  rw [← Language.one_add_self_mul_kstar_eq_kstar, Language.mem_add, Language.mem_mul]
  constructor
  · rintro (hone | ⟨a, ⟨u, rfl, hu⟩, b, hb, happ⟩)
    · cases hone
    · obtain ⟨rfl, rfl⟩ : u = t ∧ b = w := by simpa using happ
      rw [Language.one_add_self_mul_kstar_eq_kstar]
      exact ⟨hu, hb⟩
  · intro h
    rw [Language.one_add_self_mul_kstar_eq_kstar] at h
    exact .inr ⟨[t], ⟨t, rfl, h.1⟩, w, h.2, rfl⟩

variable {here : List Byte → Bool}

theorem matchstar_iff : matchstar c here text = true ↔ ∃ u v, text = u ++ v ∧ u ∈ (single c)∗ ∧ here v = true := by
  induction text with
  | nil =>
    constructor
    · intro h
      exact ⟨[], [], rfl, Language.nil_mem_kstar _, h⟩
    · rintro ⟨u, v, htext, -, hv⟩
      obtain ⟨rfl, rfl⟩ := List.append_eq_nil_iff.mp htext.symm
      exact hv
  | cons t text ih =>
    simp only [matchstar, Bool.or_eq_true, Bool.and_eq_true, decide_eq_true_eq, ih]
    constructor
    · rintro (h | ⟨ht, u, v, rfl, hu, hv⟩)
      · exact ⟨[], t :: text, rfl, Language.nil_mem_kstar _, h⟩
      · refine ⟨t :: u, v, rfl, ?_, hv⟩
        rw [cons_mem_star]
        exact ⟨ht.symm.imp_right Eq.symm, hu⟩
    · rintro ⟨u, v, htext, hu, hv⟩
      cases u with
      | nil =>
        left
        rw [htext]
        exact hv
      | cons s u =>
        obtain ⟨rfl, rfl⟩ : t = s ∧ text = u ++ v := by simpa using htext
        rw [cons_mem_star] at hu
        exact .inr ⟨hu.1.symm.imp_left Eq.symm, u, v, rfl, hu.2, hv⟩

theorem matchone_iff : matchone c here text = true ↔ ∃ u v, text = u ++ v ∧ u ∈ single c ∧ here v = true := by
  cases text with
  | nil =>
    simp only [matchone, Bool.false_eq_true, false_iff]
    rintro ⟨u, v, htext, ⟨t, rfl, -⟩, -⟩
    simp at htext
  | cons t text =>
    simp only [matchone, Bool.and_eq_true, Bool.or_eq_true, decide_eq_true_eq]
    constructor
    · intro h
      exact ⟨[t], text, rfl, ⟨t, rfl, h.1⟩, h.2⟩
    · rintro ⟨u, v, htext, ⟨s, rfl, hs⟩, hv⟩
      obtain ⟨rfl, rfl⟩ : t = s ∧ text = v := by simpa using htext
      exact ⟨hs, hv⟩

-- A pattern that begins with an item starts with a word of the item and goes on with the other items.
theorem starts_cons {it : Item} {re' : List Byte} (hitems : items re = (it :: (items re').1, (items re').2)) :
    Starts re text ↔ ∃ u v, text = u ++ v ∧ u ∈ it.language ∧ Starts re' v := by
  simp only [Starts, hitems, language, List.map_cons, List.prod_cons, Language.mem_mul]
  constructor
  · rintro ⟨w, post, rfl, ⟨u, hu, v, hv, rfl⟩, hend⟩
    exact ⟨u, v ++ post, List.append_assoc u v post, hu, v, post, rfl, hv, hend⟩
  · rintro ⟨u, v, rfl, hu, w, post, rfl, hw, hend⟩
    exact ⟨u ++ w, post, (List.append_assoc u w post).symm, ⟨u, hu, w, hw, rfl⟩, hend⟩

theorem starts_nil (text : List Byte) : Starts [] text :=
  ⟨[], text, rfl, rfl, fun h => absurd h Bool.false_ne_true⟩

theorem matchhere_iff (re text : List Byte) : matchhere re text = true ↔ Starts re text := by
  induction re using items.induct generalizing text with
  | case1 =>
    simp only [matchhere, starts_nil]
  | case2 =>
    have hitems : items [dollar] = ([], true) := by simp [items]
    simp only [matchhere, if_true, List.isEmpty_iff, Starts, hitems, forall_const]
    constructor
    · rintro rfl
      exact ⟨[], [], rfl, rfl, rfl⟩
    · rintro ⟨w, post, rfl, hw, rfl⟩
      rw [List.append_nil]
      exact hw
  | case3 c hc =>
    have hitems : items [c] = (.one c :: (items []).1, (items []).2) := by simp [items, hc]
    simp only [matchhere, if_neg hc, matchone_iff, starts_cons hitems, Item.language, starts_nil]
  | case4 c re ih =>
    have hitems : items (c :: star :: re) = (.star c :: (items re).1, (items re).2) := by simp [items]
    simp only [matchhere, if_true, matchstar_iff, ih, starts_cons hitems, Item.language]
  | case5 c d re hd ih =>
    have hitems : items (c :: d :: re) = (.one c :: (items (d :: re)).1, (items (d :: re)).2) := by
      simp [items, hd]
    simp only [matchhere, if_neg hd, matchone_iff, ih, starts_cons hitems, Item.language]

theorem matchanywhere_iff (re text : List Byte) :
    matchanywhere re text = true ↔ ∃ pre rest, text = pre ++ rest ∧ Starts re rest := by
  induction text with
  | nil =>
    rw [matchanywhere, matchhere_iff]
    constructor
    · intro h
      exact ⟨[], [], rfl, h⟩
    · rintro ⟨pre, rest, htext, hrest⟩
      obtain ⟨rfl, rfl⟩ := List.append_eq_nil_iff.mp htext.symm
      exact hrest
  | cons t text ih =>
    rw [matchanywhere, Bool.or_eq_true, matchhere_iff, ih]
    constructor
    · rintro (h | ⟨pre, rest, rfl, h⟩)
      · exact ⟨[], t :: text, rfl, h⟩
      · exact ⟨t :: pre, rest, rfl, h⟩
    · rintro ⟨pre, rest, htext, hrest⟩
      cases pre with
      | nil =>
        left
        rw [htext]
        exact hrest
      | cons s pre =>
        obtain ⟨rfl, rfl⟩ : t = s ∧ text = pre ++ rest := by simpa using htext
        exact .inr ⟨pre, rest, rfl, hrest⟩

theorem matchtext_iff (re text : List Byte) : matchtext re text = true ↔ if re.head? = some caret then
        ∃ w post, text = w ++ post ∧ w ∈ language (items re.tail).1 ∧ ((items re.tail).2 = true → post = [])
      else
        ∃ pre w post, text = pre ++ (w ++ post) ∧ w ∈ language (items re).1 ∧ ((items re).2 = true → post = []) := by
  unfold matchtext
  split
  · exact matchhere_iff re.tail text
  · rw [matchanywhere_iff]
    constructor
    · rintro ⟨pre, rest, rfl, w, post, rfl, hw⟩
      exact ⟨pre, w, post, rfl, hw⟩
    · rintro ⟨pre, w, post, rfl, hw⟩
      exact ⟨pre, w ++ post, rfl, w, post, rfl, hw⟩

end Language

end Xv6.Grep
