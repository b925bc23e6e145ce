import Nonlocal.Proofs.Json.Reread
import Nonlocal.Report.Codec
import Nonlocal.Report.Summary

/-!
What is shown of a report.

The summary of a report shows values one after another, each rounded to some places and with its
label in front of it (`SandboxReport.inOrder_summary`, `EzphReport.inOrder_summary`). Its record
holds no number that cannot be written, whatever the report is (`SandboxReport.isFinite_toJson`,
`EzphReport.isFinite_toJson`), so that the text of the record is read as the record.
-/

namespace Nonlocal

open Decimal

/-! ## Pieces of a text -/

/-- The pieces occur in the text one after another. -/
inductive InOrder : List String → String → Prop
  | nil (text : String) : InOrder [] text
  | cons (before piece : String) {pieces : List String} {rest : String} : InOrder pieces rest →
    InOrder (piece :: pieces) (before ++ piece ++ rest)

namespace InOrder

variable {p q : List String} {s t : String}

theorem prepend (s : String) (order : InOrder p t) : InOrder p (s ++ t) := by
  rcases order with _ | @⟨before, piece, pieces, rest, later⟩
  · exact .nil _
  · rw [← String.append_assoc, ← String.append_assoc]
    exact .cons (s ++ before) piece later

theorem append (first : InOrder p s) (second : InOrder q t) : InOrder (p ++ q) (s ++ t) := by
  induction first with
  | nil s => exact second.prepend s
  | cons before piece _ ih =>
    rw [String.append_assoc]
    exact .cons before piece ih

theorem piece (s : String) : InOrder [s] s := by
  have whole := cons "" s (nil "")
  rwa [String.empty_append, String.append_empty] at whole

/-- A text that goes on with other texts and pieces in turn. -/
def weave (s : String) : List (String × String) → String
  | [] => s
  | (before, piece) :: rest => weave (s ++ before ++ piece) rest

theorem weave_append {w : List (String × String)} (order : InOrder p s) :
    InOrder (p ++ w.map Prod.snd) (weave s w) := by
  induction w generalizing p s with
  | nil =>
    rw [List.map_nil, List.append_nil]
    exact order
  | cons part rest ih =>
    have longer := order.append ((piece part.2).prepend part.1)
    rw [← String.append_assoc] at longer
    rw [List.map_cons, List.append_cons]
    exact ih longer

theorem of_weave {w : List (String × String)} (same : weave "" w = s) :
    InOrder (w.map Prod.snd) s :=
  same ▸ (nil "").weave_append

/-! ## Lines -/

theorem unlines_cons (line : String) (lines : List String) :
    unlines (line :: lines) = line ++ "\n" ++ unlines lines := by
  rw [unlines, List.map_cons, String.join_cons]
  rfl

theorem unlines_append (first second : List String) :
    unlines (first ++ second) = unlines first ++ unlines second := by
  induction first with
  | nil => exact String.empty_append.symm
  | cons line rest ih =>
    rw [List.cons_append, unlines_cons, unlines_cons, ih, ← String.append_assoc]

theorem consLine {l : String} {lines : List String} (first : InOrder p l)
    (others : InOrder q (unlines lines)) : InOrder (p ++ q) (unlines (l :: lines)) := by
  rw [unlines_cons, String.append_assoc]
  exact first.append (others.prepend "\n")

theorem appendLines {first second : List String} (left : InOrder p (unlines first))
    (right : InOrder q (unlines second)) : InOrder (p ++ q) (unlines (first ++ second)) := by
  rw [unlines_append]
  exact left.append right

theorem mapLines {α : Type} {shown : α → List String} {text : α → String}
    (each : ∀ x, InOrder (shown x) (text x)) (xs : List α) :
    InOrder (xs.flatMap shown) (unlines (xs.map text)) := by
  induction xs with
  | nil => exact .nil _
  | cons x rest ih => exact (each x).consLine ih

end InOrder

/-! ## Summaries -/

/-- The coordinates of a point as they are shown. -/
def Vec3.shown (v : Vec3 Float) : List String :=
  [signed 3 v.x, signed 3 v.y, signed 3 v.z]

/-- What is shown of a two-party outcome. -/
def TwoPartyOutcome.shown (o : TwoPartyOutcome Float) : List String :=
  ["Exact S", fixed 4 o.exact, "Sampled S", fixed 4 o.sampled, fixed 4 o.confidence,
    toString o.shotsPerTerm, "Classical", fixed 4 o.classicalLimit, "Tsirelson",
    fixed 4 o.tsirelsonBound, "Status",
    if o.violatesClassical then "VIOLATION ✅" else "classical ✖"]

theorem TwoPartyOutcome.inOrder_summary (o : TwoPartyOutcome Float) :
    InOrder o.shown (unlines o.summary) := by
  have exactLine := InOrder.of_weave (w := [("  ", "Exact S"), ("     : ", fixed 4 o.exact)]) rfl
  have sampled := InOrder.of_weave (w := [("  ", "Sampled S"), ("   : ", fixed 4 o.sampled),
    (" ± ", fixed 4 o.confidence), (" (shots/term ~ ", toString o.shotsPerTerm)]) rfl
  have classical := InOrder.of_weave (w := [("  ", "Classical"),
    ("   : ", fixed 4 o.classicalLimit)]) rfl
  have tsirelson := InOrder.of_weave (w := [("  ", "Tsirelson"),
    ("   : ", fixed 4 o.tsirelsonBound)]) rfl
  have status := InOrder.of_weave (w := [("  ", "Status"), ("      : ",
    if o.violatesClassical then "VIOLATION ✅" else "classical ✖")]) rfl
  exact .consLine (.nil _) (.consLine (.nil _) (.consLine exactLine
    (.consLine (sampled.append (.nil ")")) (.consLine classical (.consLine tsirelson
      (.consLine status (.nil _)))))))

/-- What is shown of a hypergraph outcome. -/
def HypergraphOutcome.shown (o : HypergraphOutcome Float) : List String :=
  [toString o.dims, "Exact", fixed 4 o.exact, "Sampled", fixed 4 o.sampled, fixed 4 o.confidence,
    toString o.shotsPerTerm, "Target", fixed 4 o.target, "Status",
    if o.meetsTarget then "VIOLATION ✅" else "below target ✖"] ++ o.projectedAxes.flatMap Vec3.shown

theorem Vec3.inOrder_text (v : Vec3 Float) : InOrder v.shown v.text :=
  (InOrder.of_weave (w := [("(", signed 3 v.x), (", ", signed 3 v.y), (", ", signed 3 v.z)])
    rfl).append (.nil ")")

theorem HypergraphOutcome.inOrder_summary (o : HypergraphOutcome Float) :
    InOrder o.shown (unlines o.summary) := by
  have dims := (InOrder.piece (toString o.dims)).append (.nil "D Hypergraph Correlator:")
  have exactLine := InOrder.of_weave (w := [("  ", "Exact"), (" S_5D  : ", fixed 4 o.exact)]) rfl
  have sampled := InOrder.of_weave (w := [("  ", "Sampled"), (" S_5D: ", fixed 4 o.sampled),
    (" ± ", fixed 4 o.confidence), (" (shots/edge ~ ", toString o.shotsPerTerm)]) rfl
  have target := InOrder.of_weave (w := [("  ", "Target"), ("      : ", fixed 4 o.target)]) rfl
  have status := InOrder.of_weave (w := [("  ", "Status"), ("      : ",
    if o.meetsTarget then "VIOLATION ✅" else "below target ✖")]) rfl
  have axes : InOrder (o.projectedAxes.flatMap Vec3.shown)
      (unlines (o.projectedAxes.zipIdx.map fun a => s!"  axis-{a.2}: {a.1.text}")) := by
    have line (a : Vec3 Float × Nat) : InOrder a.1.shown s!"  axis-{a.2}: {a.1.text}" :=
      a.1.inOrder_text.prepend _
    have each := InOrder.mapLines line o.projectedAxes.zipIdx
    rwa [← List.flatMap_map Prod.fst Vec3.shown, List.zipIdx_map_fst] at each
  have lines := InOrder.consLine dims (.consLine exactLine (.consLine (sampled.append (.nil ")"))
    (.consLine target (.consLine status (.consLine (.nil "") (.consLine
      (.nil "Projected (5D → 3D) axis preview:") (.nil (unlines []))))))))
  exact .appendLines (.consLine (.nil "") lines) axes

theorem inOrder_optional {α : Type} {shown summary : α → List String}
    (each : ∀ x, InOrder (shown x) (unlines (summary x))) (part : Option α) :
    InOrder ((part.map shown).getD []) (unlines ((part.map summary).getD [])) := by
  rcases part with _ | x
  · exact .nil _
  · exact each x

namespace SandboxReport

/-- What is shown of a correlator run: the settings that it was made with, and its outcomes. -/
def shown (settings : BridgeSettings Float) (r : SandboxReport Float) : List String :=
  [toString settings.epoch, settings.seed] ++
    ((settings.receipt.map fun receipt => [receipt.tupleId]).getD [] ++
      ((r.twoQubit.map TwoPartyOutcome.shown).getD [] ++
        (r.fiveD.map HypergraphOutcome.shown).getD []))

/-- The summary of a correlator run shows its outcomes. -/
theorem inOrder_summary (settings : BridgeSettings Float) (r : SandboxReport Float) :
    InOrder (r.shown settings) (r.summary settings) := by
  have source := (InOrder.of_weave (w := [("QRNG epoch: ", toString settings.epoch),
    (" · seed: ", settings.seed)]) rfl).append (.nil "...")
  have tuple : InOrder ((settings.receipt.map fun receipt => [receipt.tupleId]).getD [])
      (unlines (settings.receipt.map fun receipt => s!"Tuple ID: {receipt.tupleId}").toList) := by
    rcases settings.receipt with _ | receipt
    · exact .nil _
    · exact .consLine ((InOrder.piece receipt.tupleId).prepend "Tuple ID: ") (.nil _)
  have pair := inOrder_optional TwoPartyOutcome.inOrder_summary r.twoQubit
  have many := inOrder_optional HypergraphOutcome.inOrder_summary r.fiveD
  have head := InOrder.consLine (.nil "=== QRNG-Seeded CHSH Sandbox ===") (.consLine source
    (.nil (unlines [])))
  rw [summary, List.append_assoc, List.append_assoc]
  exact .appendLines head (.appendLines tuple (.appendLines pair many))

end SandboxReport

/-- What is shown of an axis of a projection. -/
def AxisProjection.shown (a : AxisProjection Float) : List String :=
  a.axis.name :: (a.vector.shown ++ [fixed 3 a.norm])

namespace EzphReport

/-- What is shown of a chaos run before its correlators. -/
def shownSample (r : EzphReport Float) : List String :=
  ["Seed", r.seed, fixed 6 r.logisticScalar, "Chaos energy", fixed 4 r.chaosEnergy,
    "Ciphertext digest", fixed 4 r.ciphertext.digest, toString r.ciphertext.slots,
    plain r.ciphertext.scale.log2.round]

/-- What is shown of the privacy of a chaos run, and its fingerprint. -/
def shownPrivacy (r : EzphReport Float) : List String :=
  ["Rényi divergence", fixed 3 r.privacy.reyniDivergence, scientific 3 r.privacy.entropyLeakBits,
    "Hockey-stick δ", scientific 3 r.privacy.hockeyStickDelta,
    scientific 1 r.privacy.amplificationBound, "Satisfied",
    if r.privacy.satisfied then "YES" else "NO", "Quantum hash", fixed 6 r.quantumHash]

/-- What is shown of a chaos run. -/
def shown (r : EzphReport Float) : List String :=
  r.shownSample ++ ((r.correlators.zip r.sampled).flatMap (fun p => [signed 4 p.1, signed 4 p.2]) ++
    (r.shownPrivacy ++ r.projection.axes.flatMap AxisProjection.shown))

theorem inOrder_termLine (i : Nat) (x y : Float) :
    InOrder [signed 4 x, signed 4 y] (termLine i x y) := by
  have number := ((InOrder.piece (signed 4 x)).prepend s!"  term-{i}: exact=").append
    (.prepend " sampled=" (.piece (signed 4 y)))
  rwa [← String.append_assoc] at number

theorem inOrder_line (a : AxisProjection Float) : InOrder a.shown a.line := by
  have name := (InOrder.piece a.axis.name).prepend "  "
  have vector := a.vector.inOrder_text.prepend ": "
  have norm := (InOrder.piece (fixed 3 a.norm)).prepend " |v|="
  have line := (name.append vector).append norm
  rwa [← String.append_assoc, ← String.append_assoc] at line

/-- The summary of a chaos run shows its sample of chaos, its correlators, its privacy and its
projection. -/
theorem inOrder_summary (r : EzphReport Float) : InOrder r.shown r.summary := by
  have seed := InOrder.of_weave (w := [("", "Seed"), (": ", r.seed),
    (" · logistic=", fixed 6 r.logisticScalar)]) rfl
  have energy := InOrder.of_weave (w := [("", "Chaos energy"), (": ", fixed 4 r.chaosEnergy)]) rfl
  have digest := (InOrder.of_weave (w := [("", "Ciphertext digest"),
    (": ", fixed 4 r.ciphertext.digest), (" (", toString r.ciphertext.slots),
    (" slots, scale 2^", plain r.ciphertext.scale.log2.round)]) rfl).append (.nil ")")
  have divergence := InOrder.of_weave (w := [("  ", "Rényi divergence"),
    (": ", fixed 3 r.privacy.reyniDivergence),
    (" · leak bits ≤ ", scientific 3 r.privacy.entropyLeakBits)]) rfl
  have delta := InOrder.of_weave (w := [("  ", "Hockey-stick δ"),
    (": ", scientific 3 r.privacy.hockeyStickDelta),
    (" · amplification ≤ ", scientific 1 r.privacy.amplificationBound)]) rfl
  have satisfied := InOrder.of_weave (w := [("  ", "Satisfied"),
    (": ", if r.privacy.satisfied then "YES" else "NO")]) rfl
  have hash := InOrder.of_weave (w := [("", "Quantum hash"), (": ", fixed 6 r.quantumHash)]) rfl
  have sample := InOrder.consLine (.nil "=== 5D-EZPH Prototype ===") (.consLine seed
    (.consLine energy (.consLine digest (.consLine (.nil "Correlators (exact vs sampled):")
      (.nil (unlines []))))))
  have privacy := InOrder.consLine (.nil "Privacy metrics:") (.consLine divergence (.consLine delta
    (.consLine satisfied (.consLine hash (.consLine (.nil "Projection (5D→3D axes):")
      (.nil (unlines [])))))))
  have line (a : (Float × Float) × Nat) := inOrder_termLine a.2 a.1.1 a.1.2
  have terms := InOrder.mapLines line (r.correlators.zip r.sampled).zipIdx
  rw [← List.flatMap_map Prod.fst fun p : Float × Float => [signed 4 p.1, signed 4 p.2],
    List.zipIdx_map_fst] at terms
  have axes := InOrder.mapLines inOrder_line r.projection.axes
  unfold summary
  dsimp only
  rw [List.append_assoc, List.append_assoc]
  exact .appendLines sample (.appendLines terms (.appendLines privacy axes))

end EzphReport

/-! ## Records -/

namespace Json

theorem isFinite_ofFloat (x : Float) : (ofFloat x).IsFinite := by
  unfold ofFloat
  split
  · next finite => exact .decimal finite
  · exact .null

theorem isFinite_ofList {α : Type} {write : α → Json} (each : ∀ x, (write x).IsFinite)
    (xs : List α) : (ofList write xs).IsFinite :=
  .array (List.forall_mem_map.mpr fun x _ => each x)

theorem isFinite_ofWord (n : UInt64) : (ofWord n).IsFinite :=
  .integer _

end Json

open Json

theorem TwoPartyOutcome.isFinite_toJson (o : TwoPartyOutcome Float) : o.toJson.IsFinite := by
  refine .object ?_
  simp only [List.forall_mem_cons, List.not_mem_nil, false_implies, implies_true, and_true,
    isFinite_ofFloat, isFinite_ofWord, isFinite_ofList isFinite_ofFloat]

theorem Vec3.isFinite_toJson (v : Vec3 Float) : v.toJson.IsFinite :=
  isFinite_ofList isFinite_ofFloat v.toList

theorem HypergraphOutcome.isFinite_toJson (o : HypergraphOutcome Float) : o.toJson.IsFinite := by
  refine .object ?_
  simp only [List.forall_mem_cons, List.not_mem_nil, false_implies, implies_true, and_true,
    isFinite_ofFloat, isFinite_ofWord, isFinite_ofList isFinite_ofFloat,
    isFinite_ofList Vec3.isFinite_toJson]

theorem isFinite_optionalEntry {α : Type} {write : α → Json} (each : ∀ x, (write x).IsFinite)
    (name : String) (part : Option α) :
    ∀ e ∈ optionalEntry name write part, e.2.IsFinite := by
  rcases part with _ | x
  · exact List.forall_mem_nil _
  · exact List.forall_mem_singleton.mpr (each x)

theorem Projection.isFinite_toJson (p : Projection Float) : p.toJson.IsFinite := by
  refine .object (List.forall_mem_cons.mpr ⟨.object ?_, List.forall_mem_singleton.mpr (.object ?_)⟩)
  · exact List.forall_mem_map.mpr fun a _ => a.vector.isFinite_toJson
  · exact List.forall_mem_map.mpr fun a _ => isFinite_ofFloat a.norm

/-- Whatever the outcomes of a correlator run are, their record can be written. -/
theorem SandboxReport.isFinite_toJson (r : SandboxReport Float) : r.toJson.IsFinite := by
  refine .object (List.forall_mem_append.mpr ⟨List.forall_mem_append.mpr ⟨?_, ?_⟩, ?_⟩)
  · exact isFinite_optionalEntry TwoPartyOutcome.isFinite_toJson "two_qubit" r.twoQubit
  · exact isFinite_optionalEntry HypergraphOutcome.isFinite_toJson "five_d" r.fiveD
  · exact List.forall_mem_cons.mpr
      ⟨.integer r.shots.toInt, List.forall_mem_singleton.mpr (isFinite_ofFloat r.depolarizing)⟩

/-- Whatever the outcome of a chaos run is, its record can be written. -/
theorem EzphReport.isFinite_toJson (r : EzphReport Float) : r.toJson.IsFinite := by
  have ciphertext : r.ciphertext.toJson.IsFinite := by
    refine .object ?_
    simp only [List.forall_mem_cons, List.not_mem_nil, false_implies, implies_true, and_true,
      isFinite_ofFloat, isFinite_ofWord]
  have privacy : r.privacy.toJson.IsFinite := by
    refine .object ?_
    simp only [List.forall_mem_cons, List.not_mem_nil, false_implies, implies_true, and_true,
      isFinite_ofFloat, Json.IsFinite.boolean]
  refine .object ?_
  simp only [List.forall_mem_cons, List.not_mem_nil, false_implies, implies_true, and_true,
    isFinite_ofFloat, isFinite_ofWord, isFinite_ofList isFinite_ofFloat, Json.IsFinite.string,
    ciphertext, privacy, r.projection.isFinite_toJson]

/-! ## Publication -/

/-- A report as it is published: what is shown of it, the summary and the record. -/
structure Rendering where
  shown : List String
  summary : String
  record : Json

namespace Rendering

/-- The text of the record as it is saved. -/
def text (r : Rendering) : String :=
  Json.pretty 0 r.record

/-- The summary shows everything that is to be shown in its order, and the text that is saved is
read as the record. -/
structure IsFaithful (r : Rendering) : Prop where
  inOrder : InOrder r.shown r.summary
  reread : Json.Document.read r.text = (Json.Document.ofWritten r.record, some [])

end Rendering

/-- How the report of a correlator run with these settings is published. -/
def SandboxReport.rendering (settings : BridgeSettings Float) (r : SandboxReport Float) :
    Rendering :=
  ⟨r.shown settings, r.summary settings, r.toJson⟩

theorem SandboxReport.isFaithful_rendering (settings : BridgeSettings Float)
    (r : SandboxReport Float) : (r.rendering settings).IsFaithful :=
  ⟨r.inOrder_summary settings, Json.Document.read_pretty r.isFinite_toJson 0⟩

/-- How the report of a chaos run is published. -/
def EzphReport.rendering (r : EzphReport Float) : Rendering :=
  ⟨r.shown, r.summary, r.toJson⟩

theorem EzphReport.isFaithful_rendering (r : EzphReport Float) : r.rendering.IsFaithful :=
  ⟨r.inOrder_summary, Json.Document.read_pretty r.isFinite_toJson 0⟩

end Nonlocal
