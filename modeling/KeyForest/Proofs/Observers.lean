import KeyForest.Proofs.FlatList
import KeyForest.Proofs.Forest.Operations

/-!
# What observers are shown

Both key lists show their observers consistent views only, also in the middle of an operation. A
checker that follows them therefore finds no fault, at whatever moment it starts.
-/
namespace KeyForest

variable {σ : Type} [Listing σ] {notices : List (Change × σ)}

/-- A change to come: the one after it is the deed. -/
def Change.IsAnnouncement : Change → Prop
  | .aboutToInsert .. | .aboutToRemove .. => True
  | _ => False

/-- No checker finds a fault, whether it follows from the start or from a later moment on that is
not between an announcement and its deed. -/
def Unobjectionable (notices : List (Change × σ)) : Prop :=
  ∀ earlier later, notices = earlier ++ later →
    (∀ notice ∈ earlier.getLast?, ¬ notice.1.IsAnnouncement) → Checker.firstFault {} later = none

theorem Sound.unobjectionable (h : Sound notices) : Unobjectionable notices := by
  rintro earlier later rfl hlast
  refine h.firstFault fun parent first last seen hbefore => ?_
  rcases hbefore with hbefore | hbefore
  · exact absurd trivial (hlast _ hbefore)
  · exact absurd trivial (hlast _ hbefore)

/-- Every single change that a run of operations reports is seen on a consistent view and fits the
changes around it, for the forest as for the flat list. -/
theorem run_observed (operations : List Operation) :
    (Sound (Operation.run operations : Journal Forest).notices ∧
      Unobjectionable (Operation.run operations : Journal Forest).notices) ∧
    Sound (Operation.run operations : Journal FlatList).notices ∧
      Unobjectionable (Operation.run operations : Journal FlatList).notices := by
  have hforest := (Forest.run_spec operations).1.sound
  have hflat := (FlatList.run_spec operations).1.sound
  exact ⟨⟨hforest, hforest.unobjectionable⟩, hflat, hflat.unobjectionable⟩

end KeyForest
