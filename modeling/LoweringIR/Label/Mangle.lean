/-!
# Mangled labels

Names inside a program may hold characters that the assembler does not take in a label. Mangling
replaces each of them by one that it does, in one pass over the name for each character.

No replacement is itself replaced by a later pass, so the passes together are the single map
`mangleChar` and their order does not matter. They are not injective: `a-b` and `a_b` share a label,
which is what the label check is for.
-/

namespace LoweringIR.Label

/-- The characters that are replaced, with what replaces them, in the order of the passes. -/
def substitutions : List (Char × Char) := [('-', '_'), ('?', 'q'), ('!', 'l')]

/-- One pass: every `old` becomes `new`. -/
def replaceChar (old new : Char) (s : String) : String :=
  String.ofList (s.toList.map fun c => if c = old then new else c)

/-- The label that a name is emitted as. -/
def mangle (name : String) : String :=
  substitutions.foldl (fun s p => replaceChar p.1 p.2 s) name

/-- What mangling makes of one character. -/
def mangleChar (c : Char) : Char :=
  if c = '-' then '_' else if c = '?' then 'q' else if c = '!' then 'l' else c

/-- The passes together replace the characters one by one. -/
theorem toList_mangle (name : String) : (mangle name).toList = name.toList.map mangleChar := by
  simp only [mangle, substitutions, List.foldl_cons, List.foldl_nil, replaceChar,
    String.toList_ofList, List.map_map]
  refine List.map_congr_left fun c _ => ?_
  simp only [Function.comp_apply, mangleChar]
  by_cases h₁ : c = '-'
  · subst h₁; decide
  · by_cases h₂ : c = '?'
    · subst h₂; decide
    · simp [h₁, h₂]

/-- What mangling puts into a name it leaves there. -/
@[simp] theorem mangle_mangle (name : String) : mangle (mangle name) = mangle name := by
  have hchar : ∀ c, mangleChar (mangleChar c) = mangleChar c := by
    intro c
    simp only [mangleChar]
    split
    · decide
    · split
      · decide
      · split
        · decide
        · simp [*]
  rw [← String.toList_inj, toList_mangle, toList_mangle, List.map_map]
  exact List.map_congr_left fun c _ => hchar c

end LoweringIR.Label
