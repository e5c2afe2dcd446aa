import Stencil.Helper
import Stencil.Proofs.Fields

/-!
# The helpers that every engine has

Whatever its arguments are, such a helper shows one section with its argument or with the data of
the call in view, goes through the items of a list or the fields of a record, or fails because its
argument is neither.

Results: `Helper.builtin_cases`, from which it follows what all of these helpers have in common.
-/

namespace Stencil
namespace Helper

theorem builtin_cases
    {motive : Action → Prop} {entry : Bytes × Helper}
    (h : entry ∈ builtins)
    (a : Arguments) (s : Scope) (hasInverse : Bool)
    (data : ∀ part, motive (.showSection part s.data s))
    (argument : motive (.showSection .body (a.nth 0) s))
    (list : ∀ items, a.nth 0 = .list items → motive (.showEach s (listPasses items) []))
    (record : ∀ fields aliases, a.nth 0 = .record fields aliases →
      motive (.showEach s (recordPasses (Value.record fields aliases).entries) []))
    (fail : ∀ kind, motive (.fail (.notSequence kind))) :
    motive (entry.2 a s hasInverse) := by
  simp only [builtins, List.mem_cons, List.not_mem_nil, or_false] at h
  rcases h with rfl | rfl | rfl | rfl
  · simp only [ifHelper]
    split
    · split
      · exact argument
      · exact data .body
    · exact data .inverse
  · simp only [unlessHelper]
    split
    · exact data .inverse
    · exact data .body
  · simp only [eachHelper]
    split
    · split
      · next items hlist =>
          exact list items hlist
      · next fields aliases hrecord =>
          split
          · exact data .inverse
          · exact record fields aliases hrecord
      · exact fail _
    · exact data .inverse
  · simp only [withHelper]
    split
    · exact argument
    · exact data .inverse

end Helper
end Stencil
