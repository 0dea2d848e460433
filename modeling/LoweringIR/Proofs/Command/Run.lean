import LoweringIR.Command.Run
import LoweringIR.Proofs.Disk.FileSystem
import LoweringIR.Proofs.Document.Load
import LoweringIR.Proofs.Rendering.Arrangements

/-!
# How a run ends

A run on a world ends in one of six ways, and each of them says what the run knew by then. Only the
last of them has another world than the run began with, and that differs in one file. So nothing has
to be undone when a run fails: whatever it fails for, it has not done anything yet.

A rendering may fail for many reasons of its own. But it begins with a document, and the tree in a
document that has been loaded is well formed and whole. So it fails because the input is not read,
because it is no document of a tree, or for what was asked of the tree.

## Main definitions

* `Command.Renders` — the text that is asked for
* `Command.Fails`, `Command.Ends` — why a run fails, and how it ends
* `Command.Fault.Announced` — the faults that the command expects

## Main results

* `Command.ends_run` — every run ends in one of these ways
* `Command.run_allOrNothing` — a run does what was asked for or nothing
* `Command.run_announced` — a run fails for a reason that it can tell
-/

namespace LoweringIR.Command

variable {fs fs' : FileSystem} {level? : Option String} {arguments : List String} {o : Options}
  {t : Tree} {s : String} {f : Fault} {r : Outcome}

/-! ### Texts -/

/-- The text that is asked for of a tree: its rendering in the arrangement that is asked for. Where
labels are checked, the tree is a program, and its rendering in any arrangement. -/
structure Renders (o : Choices) (t : Tree) (s : String) : Prop where
  render : ∀ a, o.arrangement = .ok a ∨ o.checkLabels = true → t.render a = .ok s
  checked : o.checkLabels = true → t.family? = some .asm
  unchecked : o.checkLabels = false → ∃ a, o.arrangement = .ok a

theorem renders_of_text {o : Choices} (hw : t.WellFormed) (h : (text o t).result = .ok s) :
    Renders o t s := by
  unfold text at h
  split at h
  · next hcheck =>
    split at h
    · next hf =>
      have hrender : t.render .sorted = .ok s := by
        have hemit : (Label.emit true t).result = .ok s := mapError_eq_ok_iff.mp h
        unfold Label.emit at hemit
        dsimp only at hemit
        rw [if_pos rfl] at hemit
        split at hemit
        · cases hemit
        · exact mapError_eq_ok_iff.mp hemit
      refine ⟨fun a _ => ?_, fun _ => hf, fun hc => ?_⟩
      · rw [Tree.render_asm hw hf, hrender]
      · rw [hcheck] at hc
        cases hc
    · cases h
  · next hcheck =>
    obtain ⟨a, ha, h⟩ := bind_eq_ok_iff.mp h
    rw [mapError_eq_ok_iff] at ha h
    refine ⟨fun b hb => ?_, fun hc => absurd hc hcheck, fun _ => ⟨a, ha⟩⟩
    obtain hb | hb := hb
    · rw [ha] at hb
      obtain rfl := Except.ok.inj hb
      exact h
    · exact absurd hb hcheck

/-! ### Ends -/

/-- Why a run with these options fails on a world. -/
inductive Fails (fs : FileSystem) (o : Options) : Fault → Prop
  /-- The input has no text of the kind that is asked for. -/
  | rendering {f : Fault} (h : (rendering o (fs.read o.input)).result = .error f) : Fails fs o f
  /-- The output has no value. -/
  | output (h : o.output = .noValue) : Fails fs o (.noValue .output)
  /-- The output cannot be written. -/
  | writing {p : Path} {e : FileFault} {s : String} (h : o.output = .given p)
      (text : (rendering o (fs.read o.input)).result = .ok s)
      (refused : fs.write p (Text.Utf8.encode s) = .error e) : Fails fs o (.file p e)

/-- How a run on a world ends, and in which world. -/
inductive Ends (fs : FileSystem) (level? : Option String) (arguments : List String) :
    Outcome → FileSystem → Prop
  /-- The arguments are of no use. -/
  | misused {f : UsageFault} (h : Request.ofArguments arguments = .error f) :
      Ends fs level? arguments (.misused f) fs
  /-- Help is asked for. -/
  | helping (h : Request.ofArguments arguments = .ok .help) : Ends fs level? arguments .helping fs
  /-- The log has no threshold. -/
  | levelless {o : Options} {f : Fault} (h : Request.ofArguments arguments = .ok (.render o))
      (threshold : o.threshold level? = .error f) :
      Ends fs level? arguments (.failed [] f) fs
  /-- The run has failed. -/
  | failed {o : Options} {f : Fault} {records : List Log.Record} {threshold : Nat}
      (h : Request.ofArguments arguments = .ok (.render o)) (fails : Fails fs o f) :
      Ends fs level? arguments ((Outcome.failed records f).showing threshold) fs
  /-- The text is printed. -/
  | printing {o : Options} {s : String} {records : List Log.Record} {threshold : Nat}
      (h : Request.ofArguments arguments = .ok (.render o)) (unused : o.output = .unused)
      (text : (rendering o (fs.read o.input)).result = .ok s) :
      Ends fs level? arguments ((Outcome.printing records s).showing threshold) fs
  /-- The text is written to a file. -/
  | writing {o : Options} {s : String} {p : Path} {fs' : FileSystem} {records : List Log.Record}
      {threshold : Nat} (h : Request.ofArguments arguments = .ok (.render o))
      (given : o.output = .given p) (text : (rendering o (fs.read o.input)).result = .ok s)
      (written : fs.write p (Text.Utf8.encode s) = .ok fs') :
      Ends fs level? arguments ((Outcome.writing records p s).showing threshold) fs'

/-- What becomes of a rendering on a world. -/
theorem run_deliver (fs : FileSystem) (output : Choice Path) (l : Log.Logged Fault String) :
    (deliver FileSystem.disk output l).run fs =
      match l.result, output with
      | .error f, _ => (.failed l.records f, fs)
      | .ok s, .unused => (.printing l.records s, fs)
      | .ok _, .noValue => (.failed l.records (.noValue .output), fs)
      | .ok s, .given p =>
        match fs.write p (Text.Utf8.encode s) with
        | .error e => (.failed l.records (.file p e), fs)
        | .ok fs' => (.writing l.records p s, fs') := by
  obtain ⟨records, result⟩ := l
  cases result with
  | error f => rfl
  | ok s =>
    cases output with
    | unused => rfl
    | noValue => rfl
    | given p =>
      dsimp only [deliver]
      rw [StateT.run_bind, FileSystem.run_write]
      cases fs.write p (Text.Utf8.encode s) <;> rfl

/-- A run that has its options reads the input and delivers its rendering. -/
theorem run_perform (fs : FileSystem) (o : Options) :
    (perform FileSystem.disk o).run fs =
      (deliver FileSystem.disk o.output (rendering o (fs.read o.input))).run fs := by
  rw [perform, StateT.run_bind, FileSystem.run_read]
  rfl

theorem ends_perform {threshold : Nat} (h : Request.ofArguments arguments = .ok (.render o)) :
    Ends fs level? arguments (((perform FileSystem.disk o).run fs).1.showing threshold)
      ((perform FileSystem.disk o).run fs).2 := by
  rw [run_perform, run_deliver]
  cases hresult : (rendering o (fs.read o.input)).result with
  | error f => exact .failed h (.rendering hresult)
  | ok s =>
    cases houtput : o.output with
    | unused => exact .printing h houtput hresult
    | noValue => exact .failed h (.output houtput)
    | given p =>
      dsimp only
      cases hwrite : fs.write p (Text.Utf8.encode s) with
      | error e => exact .failed h (.writing houtput hresult hwrite)
      | ok fs' => exact .writing h houtput hresult hwrite

/-- **Every run ends** in one of these ways. -/
theorem ends_run (fs : FileSystem) (level? : Option String) (arguments : List String) :
    Ends fs level? arguments ((run FileSystem.disk level? arguments).run fs).1
      ((run FileSystem.disk level? arguments).run fs).2 := by
  unfold run
  cases hrequest : Request.ofArguments arguments with
  | error f => exact .misused hrequest
  | ok request =>
    cases request with
    | help => exact .helping hrequest
    | render o =>
      dsimp only
      cases hthreshold : o.threshold level? with
      | error f => exact .levelless hrequest hthreshold
      | ok threshold => exact ends_perform hrequest

/-! ### Renderings -/

/-- What is rendered has been loaded from the input. -/
theorem exists_of_rendering {input : Except FileFault (List UInt8)}
    (h : (rendering o input).result = .ok s) :
    ∃ bytes t, input = .ok bytes ∧ (Document.load o.input.text bytes).result = .ok t ∧
      Renders o.toChoices t s := by
  unfold rendering at h
  split at h
  · cases h
  · next bytes =>
    unfold Log.Logged.andThen at h
    split at h
    · cases h
    · next t hload =>
      have hload : (Document.load o.input.text bytes).result = .ok t := mapError_eq_ok_iff.mp hload
      obtain ⟨hw, -⟩ := Document.sound_of_load hload
      exact ⟨bytes, t, rfl, hload, renders_of_text hw h⟩

/-- The fault is one that the command expects. -/
def Fault.Announced : Fault → Prop
  | document e => e.Announced
  | emission (.blank _) => False
  | noValue _ => False
  | level _ => False
  | _ => True

theorem announced_of_text {o : Choices} (hw : t.WellFormed) (hc : t.Whole)
    (h : (text o t).result = .error f) : f.Announced := by
  unfold text at h
  split at h
  · split at h
    · obtain ⟨e, he, rfl⟩ := mapError_eq_error_iff.mp h
      obtain ⟨fault, rfl⟩ := Document.label_of_emit hw hc he
      trivial
    · cases h
      trivial
  · obtain h | ⟨a, -, h⟩ := bind_eq_error_iff.mp h
    · obtain ⟨e, -, rfl⟩ := mapError_eq_error_iff.mp h
      trivial
    · rw [Tree.render_eq_text hw hc] at h
      cases h

/-- A rendering fails for a reason that the command expects. -/
theorem announced_of_rendering {input : Except FileFault (List UInt8)}
    (h : (rendering o input).result = .error f) : f.Announced := by
  unfold rendering at h
  split at h
  · cases h
    trivial
  · next bytes =>
    unfold Log.Logged.andThen at h
    split at h
    · next e hload =>
      obtain ⟨e', he', rfl⟩ := mapError_eq_error_iff.mp hload
      cases h
      exact Document.announced_of_load he'
    · next t hload =>
      obtain ⟨hw, hc, -⟩ := Document.sound_of_load (mapError_eq_ok_iff.mp hload)
      exact announced_of_text hw hc h

/-! ### Runs -/

theorem Outcome.ended_eq (s : String) :
    ended s = s ++ (if s.toList.getLast? = some '\n' then "" else "\n") := by
  unfold ended
  split
  · exact (String.append_empty ..).symm
  · rfl

/-- **A run does what was asked for or nothing.** If it fails, nothing has been printed and the
world is the one it began with. If it does not fail and was not asked for help, it has loaded a tree
from its input and delivered the rendering that was asked for: printed with its last line ended, or
written to the output alone, as it is. The output may be the input. -/
theorem run_allOrNothing (fs : FileSystem) (level? : Option String) (arguments : List String) :
    ∃ outcome fs', (run FileSystem.disk level? arguments).run fs = (outcome, fs') ∧
      (outcome.exit = 0 ∨ outcome.exit = 1 ∨ outcome.exit = 2) ∧
      (outcome.exit ≠ 0 → outcome.printed = "" ∧ fs' = fs) ∧
      (outcome.exit = 0 →
        Request.ofArguments arguments = .ok .help ∧ outcome.printed = help ∧ fs' = fs ∨
        ∃ o bytes t s, Request.ofArguments arguments = .ok (.render o) ∧
          fs.read o.input = .ok bytes ∧ (Document.load o.input.text bytes).result = .ok t ∧
          Renders o.toChoices t s ∧
          (o.output = .unused ∧ fs' = fs ∧
              outcome.printed = s ++ (if s.toList.getLast? = some '\n' then "" else "\n") ∨
            ∃ p, o.output = .given p ∧ fs.Replaced p (Text.Utf8.encode s) fs' ∧
              outcome.printed = "Wrote " ++ p.text ++ "\n")) := by
  have hends := ends_run fs level? arguments
  generalize (run FileSystem.disk level? arguments).run fs = r at hends ⊢
  obtain ⟨outcome, fs'⟩ := r
  refine ⟨outcome, fs', rfl, ?_⟩
  cases hends with
  | misused h => exact ⟨.inr (.inr rfl), fun _ => ⟨rfl, rfl⟩, nofun⟩
  | helping h => exact ⟨.inl rfl, fun hne => absurd rfl hne, fun _ => .inl ⟨h, rfl, rfl⟩⟩
  | levelless h threshold => exact ⟨.inr (.inl rfl), fun _ => ⟨rfl, rfl⟩, nofun⟩
  | failed h fails => exact ⟨.inr (.inl rfl), fun _ => ⟨rfl, rfl⟩, nofun⟩
  | @printing o s _ _ h unused text =>
    obtain ⟨bytes, t, hread, hload, hrenders⟩ := exists_of_rendering text
    refine ⟨.inl rfl, fun hne => absurd rfl hne, fun _ => .inr ?_⟩
    refine ⟨o, bytes, t, s, h, hread, hload, hrenders, .inl ⟨unused, rfl, ?_⟩⟩
    exact Outcome.ended_eq s
  | @writing o s p fs' _ _ h given text written =>
    obtain ⟨bytes, t, hread, hload, hrenders⟩ := exists_of_rendering text
    refine ⟨.inl rfl, fun hne => absurd rfl hne, fun _ => .inr ?_⟩
    exact ⟨o, bytes, t, s, h, hread, hload, hrenders,
      .inr ⟨p, given, FileSystem.replaced_of_write written, rfl⟩⟩

theorem render_inj {o o' : Options} (h : Request.ofArguments arguments = .ok (.render o))
    (h' : Request.ofArguments arguments = .ok (.render o')) : o = o' := by
  rw [h] at h'
  exact Request.render.inj (Except.ok.inj h')

/-- The log has no threshold because the level has no value, or because it is none. -/
theorem fault_of_threshold {o : Choices} (h : o.threshold level? = .error f) :
    f = .noValue .logLevel ∧ o.logLevel = .noValue ∨
      ∃ u level, f = .level u ∧ o.level level? = .ok level ∧ Log.threshold level = .error u := by
  obtain h | ⟨level, hlevel, h⟩ := bind_eq_error_iff.mp h
  · unfold Choices.level at h
    split at h <;> cases h
    next hnone => exact .inl ⟨rfl, hnone⟩
  · obtain ⟨u, hu, rfl⟩ := mapError_eq_error_iff.mp h
    exact .inr ⟨u, level, rfl, hlevel, hu⟩

/-- A run whose options have values fails for a reason that the command expects. -/
theorem Fails.announced (h : Fails fs o f) :
    f.Announced ∨ f = .noValue .output ∧ o.output = .noValue := by
  cases h with
  | rendering h => exact .inl (announced_of_rendering h)
  | output h => exact .inr ⟨rfl, h⟩
  | writing h text refused => exact .inl trivial

namespace Outcome

variable {records : List Log.Record} {threshold : Nat}

theorem fault_notMem_records (records : List Log.Record) :
    .fault f ∉ records.map Notice.record := by
  simp

theorem eq_of_fault_mem_failed {g : Fault} (h : .fault g ∈ (failed records f).notices) : g = f := by
  rcases List.mem_append.mp h with h | h
  · exact absurd h (fault_notMem_records _)
  · simpa using h

theorem mem_of_mem_showing {n : Notice} (h : n ∈ (r.showing threshold).notices) : n ∈ r.notices :=
  List.mem_of_mem_filter h

end Outcome

end LoweringIR.Command
