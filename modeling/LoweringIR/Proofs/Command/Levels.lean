import LoweringIR.Proofs.Command.Checked

/-!
# The level of the log

A run does what it is asked for with every record, and only what came of it is held against the
threshold of the log. So two runs that differ in nothing but the level do the same, and say the same
besides their records; and of the records, the higher threshold shows what the lower one shows,
less those that do not reach it.

## Levels that are none

A level is any text, and nearly any text has a threshold: a text that names nothing asks for
warnings. Two names are an exception. They stand for something that is no level, and a run that is
asked for one of them fails before it has read anything (`Command.run_unranked`). Which texts these
are is said without the search for a threshold (`Log.threshold_eq_error_iff`), so it is known that
there are no more of them.

## Main definitions

* `Outcome.records`, `Outcome.remarks` — the notices that are records, and those that are not
* `Options.leveled` — the same request with another level

## Main results

* `Log.threshold_eq_error_iff` — the texts without a threshold
* `Command.run_leveled` — the level of the log changes nothing but which records are shown
-/

namespace LoweringIR

/-! ### Thresholds -/

namespace Log

theorem Unranked.mem_all (u : Unranked) : u ∈ all := by cases u <;> decide

theorem Unranked.name_injective {u v : Unranked} (h : u.name = v.name) : u = v := by
  cases u <;> cases v <;> first | rfl | exact absurd h (by decide)

/-- **The texts without a threshold** are the names of what is no level, in capital or small
letters. -/
theorem threshold_eq_error_iff {s : String} {u : Unranked} :
    threshold s = .error u ↔ String.ofList (s.toList.flatMap capitals) = u.name := by
  unfold threshold
  dsimp only
  constructor
  · intro h
    split at h
    · next v hfind =>
      have hname := List.find?_some hfind
      rw [beq_iff_eq] at hname
      cases h
      exact hname.symm
    · cases h
  · intro hname
    split
    · next v hfind =>
      have hv := List.find?_some hfind
      rw [beq_iff_eq] at hv
      rw [Unranked.name_injective (hv.trans hname)]
    · next hfind =>
      have hu := List.find?_eq_none.mp hfind u u.mem_all
      rw [hname] at hu
      exact absurd (beq_self_eq_true u.name) hu

/-- A record that a threshold shows is shown by every lower one. -/
theorem Record.isShown_of_le {r : Record} {t₁ t₂ : Nat} (hle : t₁ ≤ t₂)
    (h : r.isShown t₂ = true) : r.isShown t₁ = true := by
  rw [Record.isShown, decide_eq_true_iff] at h ⊢
  exact Nat.le_trans hle h

end Log

namespace Command

variable {fs : FileSystem} {level? : Option String} {arguments : List String} {o : Options}
  {f : Fault} {t t₁ t₂ : Nat}

/-! ### What is shown -/

/-- The record that a notice is. -/
def Notice.record? : Notice → Option Log.Record
  | record r => some r
  | _ => none

namespace Outcome

/-- The records among the notices. -/
def records (r : Outcome) : List Log.Record := r.notices.filterMap Notice.record?

/-- The notices that are no records. -/
def remarks (r : Outcome) : List Notice := r.notices.filter fun n => n.record?.isNone

/-- A threshold holds back the records that do not reach it. -/
theorem records_showing (r : Outcome) (t : Nat) :
    (r.showing t).records = r.records.filter (Log.Record.isShown t) := by
  rw [records, showing, List.filterMap_filter, records, List.filter_filterMap]
  refine List.filterMap_congr fun n _ => ?_
  cases n with
  | record r =>
    cases h : r.isShown t <;> simp [Notice.record?, Notice.isShown, Option.filter, h]
  | fault f => rfl
  | usage f => rfl

/-- A threshold holds back nothing else. -/
theorem remarks_showing (r : Outcome) (t : Nat) : (r.showing t).remarks = r.remarks := by
  rw [remarks, showing, List.filter_filter, remarks]
  refine List.filter_congr fun n _ => ?_
  cases n <;> rfl

/-- What a higher threshold shows can be told from what a lower one shows. -/
theorem records_showing_of_le (r : Outcome) (hle : t₁ ≤ t₂) :
    (r.showing t₂).records = (r.showing t₁).records.filter (Log.Record.isShown t₂) := by
  rw [records_showing, records_showing, List.filter_filter]
  refine List.filter_congr fun n _ => ?_
  cases h : n.isShown t₂ with
  | false => rfl
  | true => rw [Log.Record.isShown_of_le hle h, Bool.and_self]

end Outcome

/-! ### Runs -/

/-- The same request with another level of the log. -/
def Options.leveled (o : Options) (logLevel : Choice String) : Options := { o with logLevel }

/-- What a run does has nothing to do with the level. -/
theorem perform_leveled (fs : FileSystem) (o : Options) (logLevel : Choice String) :
    (perform FileSystem.disk (o.leveled logLevel)).run fs = (perform FileSystem.disk o).run fs :=
  rfl

/-- A run whose log has a threshold does what it is asked for. -/
theorem run_of_threshold (h : Request.ofArguments arguments = .ok (.render o))
    (ht : o.threshold level? = .ok t) (fs : FileSystem) :
    (run FileSystem.disk level? arguments).run fs =
      (((perform FileSystem.disk o).run fs).1.showing t, ((perform FileSystem.disk o).run fs).2) := by
  rw [run, h]
  dsimp only
  rw [ht]
  rfl

/-- A run whose log has none does nothing. -/
theorem run_of_fault (h : Request.ofArguments arguments = .ok (.render o))
    (hf : o.threshold level? = .error f) (fs : FileSystem) :
    (run FileSystem.disk level? arguments).run fs = (.failed [] f, fs) := by
  rw [run, h]
  dsimp only
  rw [hf]
  rfl

/-- A log without a threshold is one whose level has no value, or names what is no level. Nothing is
recorded of it. -/
theorem run_unranked (h : Request.ofArguments arguments = .ok (.render o))
    (hf : o.threshold level? = .error f) (fs : FileSystem) :
    (run FileSystem.disk level? arguments).run fs = (⟨1, "", [.fault f]⟩, fs) ∧
      (f = .noValue .logLevel ∧ o.logLevel = .noValue ∨
        ∃ u level, f = .level u ∧ o.level level? = .ok level ∧
          String.ofList (level.toList.flatMap Log.capitals) = u.name) := by
  obtain ⟨rfl, hnone⟩ | ⟨u, level, rfl, hlevel, hu⟩ := fault_of_threshold hf
  · exact ⟨run_of_fault h hf fs, .inl ⟨rfl, hnone⟩⟩
  · exact ⟨run_of_fault h hf fs, .inr ⟨u, level, rfl, hlevel, Log.threshold_eq_error_iff.mp hu⟩⟩

/-- **The level of the log changes nothing but which records are shown.** Two runs on one world that
are asked for the same but for the level end with the same exit code, print the same, leave the same
world and remark the same, and the one with the higher threshold shows the records of the other that
reach it. This goes for every text that has a threshold, and that is every text but the names of
what is no level; a run that is asked for one of these fails at once. -/
theorem run_leveled (fs : FileSystem) (level₁? level₂? : Option String)
    {arguments₁ arguments₂ : List String} {o : Options} {logLevel : Choice String}
    (h₁ : Request.ofArguments arguments₁ = .ok (.render o))
    (h₂ : Request.ofArguments arguments₂ = .ok (.render (o.leveled logLevel))) :
    (∀ t₁ t₂, o.threshold level₁? = .ok t₁ → (o.leveled logLevel).threshold level₂? = .ok t₂ →
      t₁ ≤ t₂ →
      ∃ r₁ r₂ fs', (run FileSystem.disk level₁? arguments₁).run fs = (r₁, fs') ∧
        (run FileSystem.disk level₂? arguments₂).run fs = (r₂, fs') ∧
        r₂.exit = r₁.exit ∧ r₂.printed = r₁.printed ∧ r₂.remarks = r₁.remarks ∧
        r₂.records = r₁.records.filter (Log.Record.isShown t₂)) ∧
    ((∃ t, o.threshold level₁? = .ok t) ∨
      ∃ f, (run FileSystem.disk level₁? arguments₁).run fs = (⟨1, "", [.fault f]⟩, fs) ∧
        (f = .noValue .logLevel ∧ o.logLevel = .noValue ∨
          ∃ u level, f = .level u ∧ o.level level₁? = .ok level ∧
            String.ofList (level.toList.flatMap Log.capitals) = u.name)) := by
  constructor
  · intro t₁ t₂ ht₁ ht₂ hle
    refine ⟨_, _, _, run_of_threshold h₁ ht₁ fs, run_of_threshold h₂ ht₂ fs, ?_⟩
    rw [perform_leveled]
    refine ⟨rfl, rfl, ?_, Outcome.records_showing_of_le _ hle⟩
    rw [Outcome.remarks_showing, Outcome.remarks_showing]
  · cases hthreshold : o.threshold level₁? with
    | ok t => exact .inl ⟨t, rfl⟩
    | error f => exact .inr ⟨f, run_unranked h₁ hthreshold fs⟩

/-- The document of a tree that does nothing. -/
def idle : List UInt8 :=
  Text.Utf8.encode ((Document.enclose .scheme (.obj [("kind", .str "Nop")])).text ++ "\n")

/-- A world with that document. -/
def idleWorld : FileSystem := ⟨[(⟨false, 0, ["doc.json"]⟩, .file idle)]⟩

/-- The request to print it. -/
def printIdle : Options := ⟨⟨.unused, .unused, false, .unused⟩, ⟨"", ["doc.json"]⟩⟩

/-- An option asks for everything, the environment for errors, and a name that is no level for
nothing that can be had. -/
theorem run_leveled_idle :
    (∃ r₁ r₂ fs',
      (run FileSystem.disk (some "error") ["doc.json", "--log-level=notset"]).run idleWorld =
        (r₁, fs') ∧
      (run FileSystem.disk (some "error") ["doc.json"]).run idleWorld = (r₂, fs') ∧
      r₂.exit = r₁.exit ∧ r₂.printed = r₁.printed ∧ r₂.remarks = r₁.remarks ∧
      r₂.records = r₁.records.filter (Log.Record.isShown 40)) ∧
    ∃ f, (run FileSystem.disk (some "_ﬆyles") ["doc.json"]).run idleWorld =
      (⟨1, "", [.fault f]⟩, idleWorld) := by
  have hidle : Request.ofArguments ["doc.json"] = .ok (.render printIdle) := rfl
  constructor
  · have hoption : Request.ofArguments ["doc.json", "--log-level=notset"] =
        .ok (.render (printIdle.leveled (.given "notset"))) := rfl
    exact (run_leveled idleWorld (some "error") (some "error") hoption hidle).1 0 40 rfl rfl
      (by decide)
  · obtain ⟨t, ht⟩ | ⟨f, hrun, -⟩ := (run_leveled idleWorld (some "_ﬆyles") none hidle hidle).2
    · cases ht
    · exact ⟨f, hrun⟩

/-- A name that is no level changes how a run ends: the same request succeeds without it. -/
theorem effect_unranked :
    Request.ofArguments ["doc.json"] = .ok (.render printIdle) ∧
      Request.ofArguments ["doc.json", "--log-level", "Basic_Format"] =
        .ok (.render (printIdle.leveled (.given "Basic_Format"))) ∧
      effect idleWorld none ["doc.json"] = ⟨0, "(nop)\n", idleWorld⟩ ∧
      effect idleWorld none ["doc.json", "--log-level", "Basic_Format"] =
        ⟨1, "", idleWorld⟩ := by
  have hrequest : Request.ofArguments ["doc.json"] = .ok (.render printIdle) := rfl
  refine ⟨hrequest, rfl, ?_, by decide +kernel⟩
  have hencode : (Value.node (.node (.common .scheme .nop) [])).encode =
      .ofJson (.obj [("kind", .str "Nop")]) := by
    simp [Value.encode_node, Value.described, Kind.schema, Kind.name, CommonKind.schema,
      CommonKind.name]
  have hload : (Document.load "doc.json" idle).result =
      .ok (.node (.common .scheme .nop) []) := by
    refine Document.load_enclose "doc.json" (.obj (by simp) ?_) (by decide)
      (Document.decode_document (by decide) (by decide) rfl hencode)
    simp [Json.Readable.str]
  have hthreshold : printIdle.threshold none = .ok 30 := rfl
  have htext : (text printIdle.toChoices (.node (.common .scheme .nop) [])).result =
      .ok "(nop)" := by
    have hrender : (Tree.node (.common .scheme .nop) []).render .sorted = .ok "(nop)" := by
      rw [Tree.render_eq_text (by decide) (by decide)]
      decide +kernel
    exact mapError_eq_ok_iff.mpr hrender
  rw [effect_of_load hrequest rfl hload, hthreshold]
  dsimp only
  rw [htext]
  rfl

end Command

end LoweringIR
