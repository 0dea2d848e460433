import LoweringIR.Proofs.Command.Run
import LoweringIR.Proofs.Document.Save
import LoweringIR.Proofs.Label.Unambiguous

/-!
# Checked runs

A run that checks labels takes another way than one that does not. It emits its program for the
assembler, and drops the ordering that was asked for. So asking for the check could change more than
what is checked, and this module says that it does not: a program that passes the check is delivered
as it would have been without, in whatever ordering, and one that does not pass is not delivered.

## What the two ways share

The text is the same because no instruction, at any depth, looks at the arrangement. What is done
with it is the same because a run leaves the rendering alone: apart from its notices, what it leaves
behind is a function of the text or the fault that came out of the rendering, and of nothing that
happened on the way.

## Main definitions

* `Command.Effect` — what a run leaves behind besides its notices
* `Command.delivered` — what delivering a text comes to

## Main results

* `Command.effect_eq` — the effect of a run is that of delivering its rendering
* `Command.effect_checking` — checking labels filters programs and changes none
-/

namespace LoweringIR.Command

variable {fs : FileSystem} {level? : Option String} {arguments : List String} {t : Tree}

/-! ### Effects -/

/-- What a run leaves behind besides its notices. -/
structure Effect where
  exit : Nat
  printed : String
  world : FileSystem
deriving DecidableEq

/-- What an outcome leaves behind, in the world that it left. -/
def Effect.of (r : Outcome × FileSystem) : Effect := ⟨r.1.exit, r.1.printed, r.2⟩

/-- The effect of a run on a world. -/
def effect (fs : FileSystem) (level? : Option String) (arguments : List String) : Effect :=
  .of ((run FileSystem.disk level? arguments).run fs)

/-- The effect of a run that delivers nothing. -/
def refused (fs : FileSystem) : Effect := ⟨1, "", fs⟩

/-- The effect of delivering a text, or of having none. -/
def delivered (fs : FileSystem) (output : Choice Path) : Except Fault String → Effect
  | .error _ => refused fs
  | .ok s =>
    match output with
    | .unused => ⟨0, Outcome.ended s, fs⟩
    | .noValue => refused fs
    | .given p =>
      match fs.write p (Text.Utf8.encode s) with
      | .error _ => refused fs
      | .ok fs' => ⟨0, "Wrote " ++ p.text ++ "\n", fs'⟩

/-- What was logged on the way to a text has no effect. -/
theorem effect_deliver (fs : FileSystem) (output : Choice Path) (l : Log.Logged Fault String) :
    .of ((deliver FileSystem.disk output l).run fs) = delivered fs output l.result := by
  rw [run_deliver]
  cases l.result with
  | error f => rfl
  | ok s =>
    cases output with
    | unused => rfl
    | noValue => rfl
    | given p =>
      dsimp only [delivered]
      cases fs.write p (Text.Utf8.encode s) <;> rfl

/-- **The effect of a run** is that of delivering its rendering, unless the log has no threshold. -/
theorem effect_eq {o : Options} (h : Request.ofArguments arguments = .ok (.render o)) :
    effect fs level? arguments =
      match o.threshold level? with
      | .error _ => refused fs
      | .ok _ => delivered fs o.output (rendering o (fs.read o.input)).result := by
  rw [effect, run, h]
  dsimp only
  cases o.threshold level? with
  | error f => rfl
  -- The threshold decides which notices are shown, and those are no part of the effect.
  | ok threshold =>
    dsimp only
    rw [← effect_deliver, ← run_perform]
    rfl

/-! ### Texts -/

/-- The effect of a run that loads a tree is that of delivering the text of the tree. -/
theorem effect_of_load {o : Options} {bytes : List UInt8}
    (h : Request.ofArguments arguments = .ok (.render o)) (hread : fs.read o.input = .ok bytes)
    (hload : (Document.load o.input.text bytes).result = .ok t) :
    effect fs level? arguments =
      match o.threshold level? with
      | .error _ => refused fs
      | .ok _ => delivered fs o.output (text o.toChoices t).result := by
  have hdocument :
      ((Document.load o.input.text bytes).mapError Fault.document).result = .ok t :=
    mapError_eq_ok_iff.mpr hload
  rw [effect_eq h, hread, rendering, Log.Logged.andThen, hdocument]

/-- A program whose labels are to be checked is emitted for the assembler. -/
theorem result_text_checked {o : Choices} (hcheck : o.checkLabels = true)
    (hf : t.family? = some .asm) :
    (text o t).result = (Label.emit true t).result.mapError .emission := by
  rw [text, if_pos hcheck, if_pos hf]
  rfl

/-- An ordering that has a value, or is not asked for, is an arrangement. -/
theorem exists_arrangement {o : Choices} (h : o.ordering ≠ .noValue) :
    ∃ a, o.arrangement = .ok a := by
  rw [Choices.arrangement]
  cases hordering : o.ordering with
  | unused => exact ⟨.sorted, rfl⟩
  | noValue => exact absurd hordering h
  | given a => exact ⟨a, rfl⟩

/-- Without the check, any tree is rendered in the ordering that is asked for. -/
theorem result_text_unchecked {o : Choices} (hcheck : o.checkLabels = false)
    (h : o.ordering ≠ .noValue) :
    ∃ a, (text o t).result = (t.render a).mapError fun e => .emission (.blank e) := by
  obtain ⟨a, ha⟩ := exists_arrangement h
  refine ⟨a, ?_⟩
  rw [text, if_neg (by rw [hcheck]; decide), ha]
  rfl

/-! ### Programs -/

/-- **The texts of a program** are one: it is rendered in any arrangement and emitted without a
check as the same text, and with a check as well, if its labels pass. -/
theorem emit_filters (hw : t.WellFormed) (hc : t.Whole) (hf : t.family? = some .asm) :
    ∃ s, (∀ a, t.render a = .ok s) ∧ (Label.emit false t).result = .ok s ∧
      (∀ m, (Label.check t).result = .ok m → (Label.emit true t).result = .ok s) ∧
      ∀ e, (Label.check t).result = .error e →
        (Label.emit true t).result = .error (.label e) := by
  have hsorted : t.render .sorted = .ok (t.text .sorted) := Tree.render_eq_text hw hc
  refine ⟨t.text .sorted, fun a => ?_, ?_, fun m hm => ?_, fun e he => ?_⟩
  · rw [Tree.render_asm hw hf, hsorted]
  · rw [Label.emit, hsorted]
    rfl
  · rw [Label.result_emit hm, hsorted]
    rfl
  · exact Label.result_emit_error he

/-- The same request with a check of labels, and with another ordering. -/
def Options.checking (o : Options) (ordering : Choice Arrangement) : Options :=
  { o with checkLabels := true, ordering }

/-- **Checking labels filters programs and changes none.** The texts of a program are one, with a
check and without, or there is a fault of its labels. So whatever world a program is loaded from,
whatever is to be done with it, and in whatever orderings, a run with the check has the effect of
one without it if the labels pass. If they do not, it delivers nothing. -/
theorem effect_checking :
    (∀ t : Tree, t.WellFormed → t.Whole → t.family? = some .asm →
      ∃ s, t.render .sorted = .ok s ∧ t.render .insertion = .ok s ∧
        (Label.emit false t).result = .ok s ∧
        ((Label.emit true t).result = .ok s ∨
          ∃ e, (Label.emit true t).result = .error (.label e))) ∧
    ∀ fs level? arguments checked o ordering bytes t,
      Request.ofArguments arguments = .ok (.render o) → o.checkLabels = false →
      o.ordering ≠ .noValue →
      Request.ofArguments checked = .ok (.render (o.checking ordering)) →
      fs.read o.input = .ok bytes → (Document.load o.input.text bytes).result = .ok t →
      t.family? = some .asm →
      (∀ m, (Label.check t).result = .ok m →
        effect fs level? checked = effect fs level? arguments) ∧
      ∀ e, (Label.check t).result = .error e → effect fs level? checked = ⟨1, "", fs⟩ := by
  constructor
  · intro t hw hc hf
    obtain ⟨s, hrender, hemit, hpass, hfail⟩ := emit_filters hw hc hf
    refine ⟨s, hrender .sorted, hrender .insertion, hemit, ?_⟩
    cases hcheck : (Label.check t).result with
    | ok m => exact .inl (hpass m hcheck)
    | error e => exact .inr ⟨e, hfail e hcheck⟩
  · intro fs level? arguments checked o ordering bytes t ho hunchecked hordering hc hread hload hf
    obtain ⟨hw, hwhole, -⟩ := Document.sound_of_load hload
    obtain ⟨s, hrender, -, hpass, hfail⟩ := emit_filters hw hwhole hf
    have hplain : (text o.toChoices t).result = .ok s := by
      obtain ⟨a, ha⟩ := result_text_unchecked (t := t) hunchecked hordering
      rw [ha, hrender a]
      rfl
    have hchecked : (text (o.checking ordering).toChoices t).result =
        (Label.emit true t).result.mapError .emission := result_text_checked rfl hf
    have hthreshold : (o.checking ordering).threshold level? = o.threshold level? := rfl
    rw [effect_of_load ho hread hload, effect_of_load hc hread hload, hplain, hchecked, hthreshold]
    refine ⟨fun m hm => ?_, fun e he => ?_⟩
    · rw [hpass m hm]
      rfl
    · rw [hfail e he]
      cases o.threshold level? <;> rfl

/-- A block that jumps to a label. -/
def jumping (block label : String) : Tree :=
  .node (.asm .prog)
    [.nodes [.node (.asm .cfg)
      [.name block, .nodes [.node (.asm .jmp) [.node (.node (.asm .label) [.name label])]]]]]

/-- It is loaded from some bytes. -/
theorem exists_load_jumping (block label : String) (hw : (jumping block label).WellFormed)
    (hc : (jumping block label).Whole) :
    ∃ bytes, (Document.load "doc.json" bytes).result = .ok (jumping block label) := by
  obtain ⟨d, hreadable, hd⟩ := Value.stored_node hw hc
  have hdocument : (Value.node (jumping block label)).encode = .ofJson
      (.obj [("kind", .str "Prog"), ("blocks", .arr [.obj [("kind", .str "Cfg"),
        ("label", .str block), ("instrs", .arr [.obj [("kind", .str "Jmp"),
          ("target", .obj [("kind", .str "Label"), ("name", .str label)])]])]])]) := by
    simp [jumping, Value.encode_node, Value.encode_tuple, Value.described, Value.ofField,
      Kind.schema, Kind.name, AsmKind.schema, AsmKind.name]
  obtain rfl := Value.ofJson_injective (hd.symm.trans hdocument)
  refine ⟨_, Document.load_enclose "doc.json" hreadable ?_ (Document.decode_document hw hc rfl hd)⟩
  simp [Json.depth, Json.depthItems, Json.depthMembers, Json.depthLimit]

/-- An ordering is asked for, and an output. -/
def unchecked : Options :=
  ⟨⟨.given ⟨"", ["out.s"]⟩, .given .insertion, false, .unused⟩, ⟨"", ["doc.json"]⟩⟩

/-- A jump to the block that it is in passes the check. A jump to another label, which is mangled to
the label of the block, has a text and does not pass. -/
theorem effect_checking_jumping :
    (∃ bytes, (Document.load "doc.json" bytes).result = .ok (jumping "loop-1" "loop-1") ∧
      let fs : FileSystem := ⟨[(⟨false, 0, ["doc.json"]⟩, .file bytes)]⟩
      effect fs none ["doc.json", "-o", "out.s", "--check-labels"] =
        effect fs none ["--ordering", "insertion", "doc.json", "-o", "out.s"]) ∧
    (∃ s, (jumping "loop-1" "loop_1").render .insertion = .ok s ∧
      (Label.emit false (jumping "loop-1" "loop_1")).result = .ok s) ∧
    ∃ bytes, (Document.load "doc.json" bytes).result = .ok (jumping "loop-1" "loop_1") ∧
      let fs : FileSystem := ⟨[(⟨false, 0, ["doc.json"]⟩, .file bytes)]⟩
      effect fs none ["doc.json", "-o", "out.s", "--check-labels"] = ⟨1, "", fs⟩ := by
  refine ⟨?_, ?_, ?_⟩
  · obtain ⟨bytes, hload⟩ := exists_load_jumping "loop-1" "loop-1" (by decide) (by decide)
    have hcheck : (Label.check (jumping "loop-1" "loop-1")).result =
        .ok [("loop-1", "loop_1")] := by
      decide +kernel
    obtain ⟨hpass, -⟩ := effect_checking.2
      ⟨[(⟨false, 0, ["doc.json"]⟩, .file bytes)]⟩ none
      ["--ordering", "insertion", "doc.json", "-o", "out.s"]
      ["doc.json", "-o", "out.s", "--check-labels"]
      unchecked .unused bytes _ rfl rfl nofun rfl rfl hload rfl
    exact ⟨bytes, hload, hpass _ hcheck⟩
  · obtain ⟨s, -, hinsertion, hemit, -⟩ :=
      effect_checking.1 (jumping "loop-1" "loop_1") (by decide) (by decide) rfl
    exact ⟨s, hinsertion, hemit⟩
  · obtain ⟨bytes, hload⟩ := exists_load_jumping "loop-1" "loop_1" (by decide) (by decide)
    have hcheck : (Label.check (jumping "loop-1" "loop_1")).result =
        .error (.collision "loop-1" "loop_1" "loop_1") := by
      decide +kernel
    obtain ⟨-, hfail⟩ := effect_checking.2
      ⟨[(⟨false, 0, ["doc.json"]⟩, .file bytes)]⟩ none
      ["--ordering", "insertion", "doc.json", "-o", "out.s"]
      ["doc.json", "-o", "out.s", "--check-labels"]
      unchecked .unused bytes _ rfl rfl nofun rfl rfl hload rfl
    exact ⟨bytes, hload, hfail _ hcheck⟩

end LoweringIR.Command
