import LoweringIR.Disk.FileSystem
import LoweringIR.Proofs.Outcome

/-!
# What writing changes

A file is written at the place that its path leads to, and at no other. That place was no directory,
so no path that led anywhere went through it, and since it is no directory afterwards, none does
then. A path therefore leads to the same place before and after, and what is read there is the same
unless it is the place that was written.

It may be that a path could not be walked for another reason than before: what follows a missing
file is missing, and what follows a file has no place. No file is read in either case.

## Main definitions

* `FileSystem.Replaced` — what a world is that differs from another one in one file

## Main results

* `FileSystem.locate_put` — where paths lead
* `FileSystem.write_eq_ok_iff` — when a file can be written
* `FileSystem.replaced_of_write` — what has been written
-/

namespace LoweringIR.FileSystem

variable {fs fs' : FileSystem} {l m m' : Location} {p q : Path} {bytes : List UInt8}
  {parts : List String}

/-! ### Places -/

/-- A listing looked up at a place. -/
private def lookup (l : Location) (es : List (Location × Entry)) : Option Entry :=
  (es.find? fun e => e.1 == l).map Prod.snd

private theorem lookup_cons (e : Location × Entry) (es : List (Location × Entry)) :
    lookup l (e :: es) = if e.1 = l then some e.2 else lookup l es := by
  by_cases h : e.1 = l <;> simp [lookup, h]

private theorem lookup_append (es es' : List (Location × Entry)) :
    lookup l (es ++ es') = (lookup l es).or (lookup l es') := by
  rw [lookup, List.find?_append, Option.map_or]
  rfl

/-- A place is listed if an entry is for it. -/
private theorem lookup_eq_none (es : List (Location × Entry)) :
    lookup l es = none ↔ es.any (fun e => e.1 == l) = false := by
  simp [lookup]

private theorem lookup_put_self (fs : FileSystem) (l : Location) (bytes : List UInt8) :
    lookup l (fs.put l bytes).entries = some (.file bytes) := by
  obtain ⟨es⟩ := fs
  unfold put
  split
  · next hany =>
    induction es with
    | nil => simp at hany
    | cons e es ih =>
      rw [List.map_cons, lookup_cons]
      by_cases he : e.1 = l
      · simp [he]
      · have hany' : es.any (fun e => e.1 == l) = true := by simpa [he] using hany
        simpa [he] using ih hany'
  · next hany =>
    rw [lookup_append, (lookup_eq_none _).mpr (Bool.eq_false_iff.mpr hany), lookup_cons]
    simp

private theorem lookup_put_of_ne (fs : FileSystem) (bytes : List UInt8) (h : m ≠ l) :
    lookup m (fs.put l bytes).entries = lookup m fs.entries := by
  obtain ⟨es⟩ := fs
  unfold put
  split
  · next hany =>
    clear hany
    induction es with
    | nil => rfl
    | cons e es ih =>
      rw [List.map_cons, lookup_cons, lookup_cons, ih]
      by_cases he : e.1 = l
      · simp [he, Ne.symm h]
      · simp [he]
  · rw [lookup_append, lookup_cons, if_neg (Ne.symm h)]
    simp [lookup]

/-- What has been put at a place is there. -/
theorem get?_put_self (hl : l.names ≠ []) : (fs.put l bytes).get? l = some (.file bytes) := by
  rw [get?, if_neg hl]
  exact lookup_put_self fs l bytes

/-- Everywhere else there is what was there before. -/
theorem get?_put_of_ne (h : m ≠ l) : (fs.put l bytes).get? m = fs.get? m := by
  unfold get?
  split
  · rfl
  · exact lookup_put_of_ne fs bytes h

/-- A place that is no directory lies below the starting place or the root. -/
theorem names_ne_nil (h : fs.get? l ≠ some .directory) : l.names ≠ [] := by
  intro hl
  rw [get?, if_pos hl] at h
  exact h rfl

/-! ### Paths -/

/-- Putting a file where there is no directory opens no way and closes none. -/
theorem walk_put (h : fs.get? l ≠ some .directory) :
    (fs.put l bytes).walk m parts = .ok m' ↔ fs.walk m parts = .ok m' := by
  induction parts generalizing m with
  | nil => rfl
  | cons part parts ih =>
    rw [walk, walk]
    by_cases hm : m = l
    · subst hm
      rw [get?_put_self (names_ne_nil h)]
      cases hget : fs.get? m with
      | none => simp
      | some e =>
        cases e with
        | file bs => simp
        | directory => exact absurd hget h
    · rw [get?_put_of_ne hm]
      cases fs.get? m with
      | none => rfl
      | some e =>
        cases e with
        | file bs => rfl
        | directory =>
          dsimp only
          split
          · rfl
          · exact ih

/-- A path leads to the same place. -/
theorem locate_put (h : fs.get? l ≠ some .directory) :
    (fs.put l bytes).locate p = .ok m ↔ fs.locate p = .ok m := by
  unfold locate
  split
  · rfl
  · split
    · rfl
    · exact walk_put h

/-! ### Files -/

/-- A file is read where there is one. -/
theorem read_eq_ok_iff :
    fs.read p = .ok bytes ↔ ∃ l, fs.locate p = .ok l ∧ fs.get? l = some (.file bytes) := by
  rw [read, bind_eq_ok_iff]
  refine exists_congr fun l => and_congr_right fun _ => ?_
  cases fs.get? l with
  | none => simp
  | some e => cases e <;> simp

/-- A file can be written wherever a path leads that is no directory. -/
theorem write_eq_ok_iff :
    fs.write p bytes = .ok fs' ↔
      ∃ l, fs.locate p = .ok l ∧ fs.get? l ≠ some .directory ∧ fs' = fs.put l bytes := by
  rw [write, bind_eq_ok_iff]
  refine exists_congr fun l => and_congr_right fun _ => ?_
  split
  · next hget => simp [hget]
  · next hget =>
    have hne : fs.get? l ≠ some .directory := hget
    simp [hne, eq_comm]

/-- A world is another one with one file replaced or created. -/
structure Replaced (fs : FileSystem) (p : Path) (bytes : List UInt8) (fs' : FileSystem) :
    Prop where
  /-- The path leads to a place at which the file is, and everywhere else is what was there. -/
  place : ∃ l, fs.locate p = .ok l ∧ fs'.get? l = some (.file bytes) ∧
    ∀ m, m ≠ l → fs'.get? m = fs.get? m
  /-- The path leads to the file. -/
  read_self : fs'.read p = .ok bytes
  /-- Paths that led elsewhere lead to the same files, and to no others. -/
  read_other : ∀ q bs, fs.locate q ≠ fs.locate p → (fs'.read q = .ok bs ↔ fs.read q = .ok bs)

/-- **What has been written** is in its file, and nothing else has changed. -/
theorem replaced_of_write (h : fs.write p bytes = .ok fs') : fs.Replaced p bytes fs' := by
  obtain ⟨l, hl, hdirectory, rfl⟩ := write_eq_ok_iff.mp h
  have hself : (fs.put l bytes).get? l = some (.file bytes) :=
    get?_put_self (names_ne_nil hdirectory)
  refine ⟨⟨l, hl, hself, fun m hm => get?_put_of_ne hm⟩, ?_, fun q bs hq => ?_⟩
  · exact read_eq_ok_iff.mpr ⟨l, (locate_put hdirectory).mpr hl, hself⟩
  · rw [read_eq_ok_iff, read_eq_ok_iff]
    refine exists_congr fun m => ?_
    rw [locate_put hdirectory]
    refine and_congr_right fun hm => ?_
    have hne : m ≠ l := by
      rintro rfl
      exact hq (hm.trans hl.symm)
    rw [get?_put_of_ne hne]

/-! ### The disk -/

/-- Reading does not change the world. -/
theorem run_read (fs : FileSystem) (p : Path) : (disk.read p).run fs = (fs.read p, fs) := rfl

/-- What cannot be written does not change the world. -/
theorem run_write (fs : FileSystem) (p : Path) (bytes : List UInt8) :
    (disk.write p bytes).run fs =
      match fs.write p bytes with
      | .error e => (.error e, fs)
      | .ok fs' => (.ok (), fs') := by
  have hwrite : (disk.write p bytes).run fs =
      (match fs.write p bytes with
        | .error e => pure (.error e)
        | .ok fs' => do
          set fs'
          pure (.ok ()) : StateM FileSystem (Except FileFault Unit)).run fs := rfl
  rw [hwrite]
  cases fs.write p bytes <;> rfl

end LoweringIR.FileSystem
