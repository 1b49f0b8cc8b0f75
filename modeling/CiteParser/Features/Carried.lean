import CiteParser.Features.Snapshot
import CiteParser.Text.LooseEnd

/-!
# The delimiter carried from token to token

Behind a token that reports a delimiter, `*mpredeli = nextpre` carries the last delimiter on
to the tokens that follow. `nextpre` is a local variable that nothing initialises, so the text
alone decides what is carried only where the call of `spilitContent` has written it.
-/

namespace CiteParser

namespace Reference

variable (ref : Reference) {s : Nat × UInt8}

/-- The text from an offset on, as `spilitContent` is handed it. -/
def textFrom (cur : Nat) : Nat → UInt8 := fun i => ref.content (cur + i)

/-- When the step at a state executes `*mpredeli = nextpre`, the call before it has written
`nextpre`. -/
def CarriesWritten (s : Nat × UInt8) : Prop :=
  ∀ t s', ref.next s = some (t, s') → isBlank t.nextdeli = false →
    AssignsNp SINGLEWORDLEN (ref.textFrom s.1) (ref.refAreaEnd - s.1)

/-- The step at a state finds a token, and its end is loose. -/
def Loose (s : Nat × UInt8) : Prop :=
  ref.next s ≠ none ∧ LooseEnd SINGLEWORDLEN (ref.textFrom s.1) (ref.refAreaEnd - s.1)

variable {ref}

/-- A step that finds a token reports what its call of `spilitContent` has reported. -/
theorem nextdeli_of_next {t : CrfNodeSnapshot} {s' : Nat × UInt8}
    (h : ref.next s = some (t, s')) :
    (ref.token s.1).ret ≠ 0 ∧ t.nextdeli = (ref.token s.1).nextdeli := by
  obtain ⟨hne, rfl, -⟩ := Reference.next_eq_some h
  exact ⟨hne, rfl⟩

/-- A step carries what its call has written exactly when its token has no loose end. -/
theorem carriesWritten_iff : ref.CarriesWritten s ↔ ¬ ref.Loose s := by
  cases hnext : ref.next s with
  | none =>
      refine iff_of_true (fun t s' h => ?_) fun h => h.1 hnext
      rw [hnext] at h
      contradiction
  | some p =>
      obtain ⟨hret, hdeli⟩ := nextdeli_of_next hnext
      have hcall : (isBlank p.1.nextdeli = false →
          AssignsNp SINGLEWORDLEN (ref.textFrom s.1) (ref.refAreaEnd - s.1)) ↔
          ¬ LooseEnd SINGLEWORDLEN (ref.textFrom s.1) (ref.refAreaEnd - s.1) := by
        rw [hdeli]
        exact assignsNp_iff hret
      constructor
      · rintro hcarries ⟨-, hloose⟩
        exact hcall.mp (hcarries p.1 p.2 hnext) hloose
      · intro htight t s' h
        rw [hnext] at h
        obtain rfl := Option.some.inj h
        refine hcall.mpr fun hloose => htight ⟨?_, hloose⟩
        rw [hnext]
        exact Option.some_ne_none _

/-- A call leaves the same behind whatever `nextpre` held, the last pointer apart. -/
theorem token_nextpre (nextpre : Nat → UInt8) (cur : Nat) :
    ∃ np, Reference.token { ref with nextpre := nextpre } cur = { ref.token cur with np := np } :=
  ⟨_, spilitContent_eq _ _⟩

/-- A step at a token without a loose end does not depend on `nextpre`. -/
theorem next_nextpre (nextpre : Nat → UInt8) (h : ¬ ref.Loose s) :
    ref.next s = Reference.next { ref with nextpre := nextpre } s := by
  obtain ⟨cur, mpredeli⟩ := s
  obtain ⟨np, htoken⟩ := @token_nextpre ref nextpre cur
  unfold Reference.next
  simp only [htoken]
  split
  · rfl
  · rename_i hret
    -- the variable is looked at only behind a delimiter that is no blank
    have hcarried : isBlank (ref.token cur).nextdeli = false → (ref.token cur).np = np := by
      intro hsolid
      have hwritten := carriesWritten_iff.mpr h _ _ (if_neg hret) hsolid
      have hnp : (Reference.token { ref with nextpre := nextpre } cur).np = np := by rw [htoken]
      exact (hwritten _ _).trans hnp
    cases hblank : isBlank (ref.token cur).nextdeli with
    | true => rfl
    | false =>
        rw [hcarried hblank]
        rfl

/-- In every range, exactly when no token has a loose end the steps carry only what
`spilitContent` has written and the snapshots are the same whatever `nextpre` held. -/
theorem carried_determined_iff (ref : Reference) (s : Nat × UInt8) :
    ((∀ v ∈ ref.snapshots.path s, ref.CarriesWritten v) ∧
      ∀ nextpre, (snapshots { ref with nextpre := nextpre }).items s = ref.snapshots.items s) ↔
    ∀ v ∈ ref.snapshots.path s, ¬ ref.Loose v := by
  constructor
  · rintro ⟨hwritten, -⟩ v hv
    exact carriesWritten_iff.mp (hwritten v hv)
  · intro htight
    refine ⟨fun v hv => carriesWritten_iff.mpr (htight v hv), fun nextpre => ?_⟩
    have hsame := ref.snapshots.items_congr (snapshots { ref with nextpre := nextpre }) s
      fun v hv => next_nextpre nextpre (htight v hv)
    exact hsame.1.symm

/-- In `12-34` the hyphen that ends the first token is reported and nothing is written, so the
second token carries what `nextpre` happened to hold. -/
theorem carried_unwritten :
    ¬ ((∀ v ∈ (plainReference (bytes "12-34")).snapshots.path (0, ' '.toUInt8),
        (plainReference (bytes "12-34")).CarriesWritten v) ∧
      ∀ nextpre, (snapshots { plainReference (bytes "12-34") with
          nextpre := nextpre }).items (0, ' '.toUInt8) =
        (plainReference (bytes "12-34")).snapshots.items (0, ' '.toUInt8)) := by
  rintro ⟨-, hsame⟩
  have hcarried := congrArg (List.map CrfNodeSnapshot.mpredeli) (hsame fun _ => ','.toUInt8)
  have hcomma : ((snapshots { plainReference (bytes "12-34") with
      nextpre := fun _ => ','.toUInt8 }).items (0, ' '.toUInt8)).map (·.mpredeli) =
      [' '.toUInt8, ','.toUInt8] := by decide +kernel
  have hzero : ((plainReference (bytes "12-34")).snapshots.items (0, ' '.toUInt8)).map
      (·.mpredeli) = [' '.toUInt8, 0] := by decide +kernel
  rw [hcomma, hzero] at hcarried
  exact absurd hcarried (by decide)

end Reference

end CiteParser
