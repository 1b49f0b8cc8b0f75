import Mathlib.Data.List.Infix

/-!
# The longest prefix that is a key

A lookup that falls back on prefixes gives the value of the text itself, or else that of its
longest proper prefix of some least length that is a key, or else a default. A search that
shortens the text one by one keeps `Unfound`, whatever the keys are.
-/

namespace CiteParser

variable {α β : Type*}

/-- `p` is the longest proper prefix of the text that is long enough and a key. -/
structure LongestPrefix (map : List α → Option β) (least : Nat) (text p : List α) (v : β) :
    Prop where
  begins : p <+: text
  proper : p.length < text.length
  enough : least ≤ p.length
  found : map p = some v
  longest : ∀ q, q <+: text → p.length < q.length → q.length < text.length → map q = none

/-- No proper prefix of the text with more than `n` characters is a key. -/
def Unfound (map : List α → Option β) (text : List α) (n : Nat) : Prop :=
  ∀ q, q <+: text → n < q.length → q.length < text.length → map q = none

/-- What looking up a text gives. -/
inductive LooksUp (map : List α → Option β) (least : Nat) (text : List α) (default : β) :
    β → Prop
  | whole {v : β} (hwhole : map text = some v) : LooksUp map least text default v
  | begins {v : β} {p : List α} (hwhole : map text = none)
      (hp : LongestPrefix map least text p v) : LooksUp map least text default v
  | nothing (hwhole : map text = none)
      (hnone : ∀ q, q <+: text → least ≤ q.length → q.length < text.length → map q = none) :
      LooksUp map least text default default

section Search

variable {map : List α → Option β} {least n : Nat} {text p p' : List α} {default v v' : β}

/-- Two longest prefixes have the same value. -/
theorem LongestPrefix.unique (h : LongestPrefix map least text p v)
    (h' : LongestPrefix map least text p' v') : v = v' := by
  have hle {q q' : List α} {w w' : β} (hq : LongestPrefix map least text q w)
      (hq' : LongestPrefix map least text q' w') : q'.length ≤ q.length := by
    by_contra hlt
    have hnone := hq.longest q' hq'.begins (Nat.lt_of_not_le hlt) hq'.proper
    rw [hq'.found] at hnone
    contradiction
  have hlen : p.length = p'.length := Nat.le_antisymm (hle h' h) (hle h h')
  have hp : p = p' := (List.prefix_of_prefix_length_le h.begins h'.begins hlen.le).eq_of_length hlen
  have hfound := h.found
  rw [hp, h'.found] at hfound
  exact (Option.some.inj hfound).symm

/-- Looking a text up has one result. -/
theorem LooksUp.unique (h : LooksUp map least text default v)
    (h' : LooksUp map least text default v') : v = v' := by
  cases h with
  | whole hwhole =>
      cases h' with
      | whole hwhole' => exact Option.some.inj (hwhole.symm.trans hwhole')
      | begins hwhole' => rw [hwhole] at hwhole'; contradiction
      | nothing hwhole' => rw [hwhole] at hwhole'; contradiction
  | begins hwhole hp =>
      cases h' with
      | whole hwhole' => rw [hwhole] at hwhole'; contradiction
      | begins _ hp' => exact hp.unique hp'
      | nothing _ hnone =>
          have hfound := hnone _ hp.begins hp.enough hp.proper
          rw [hp.found] at hfound
          contradiction
  | nothing hwhole hnone =>
      cases h' with
      | whole hwhole' => rw [hwhole] at hwhole'; contradiction
      | begins _ hp =>
          have hfound := hnone _ hp.begins hp.enough hp.proper
          rw [hp.found] at hfound
          contradiction
      | nothing => rfl

/-- Before the search nothing longer is left out. -/
theorem unfound_start (map : List α → Option β) (text : List α) :
    Unfound map text (text.length - 1) := by
  intro q _ hlong hproper
  omega

/-- A prefix that is no key is passed over. -/
theorem Unfound.shorten (h : Unfound map text n) (hnone : map (text.take n) = none) :
    Unfound map text (n - 1) := by
  intro q hq hlong hproper
  rcases Nat.lt_or_ge n q.length with hlt | hge
  · exact h q hq hlt hproper
  · have hlen : q.length = n := by omega
    rw [List.prefix_iff_eq_take.mp hq, hlen]
    exact hnone

/-- A prefix that is a key is the longest one. -/
theorem Unfound.found (h : Unfound map text n) (hn : n < text.length) (hleast : least ≤ n)
    (hfound : map (text.take n) = some v) : LongestPrefix map least text (text.take n) v := by
  have hlen : (text.take n).length = n := List.length_take_of_le hn.le
  refine ⟨List.take_prefix n text, ?_, ?_, hfound, ?_⟩
  · rwa [hlen]
  · rwa [hlen]
  · rw [hlen]
    exact h

end Search

end CiteParser
