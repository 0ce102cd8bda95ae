import AieHlc.Autotile.Spec

/-!
# Deriving the tiling of a convolution

`deriveFixed` resolves every size for a given time tile and collects what is wrong
with it; `enumerateCandidates` runs it over all divisors and ranks the legal results
by the cost model; `derive` applies the overrides and chooses between the two.
Integer division and remainder truncate towards zero.

* `fixedOutput`, `fixedMesh`, `fixedRounds`: the three groups of sizes, each computed
  once the checks before it have passed.
* `haloErrors`, `budgetErrors`: the checks that are collected, not returned at once.
-/

namespace AieHlc.Autotile

/-- The divisors of `n`, ascending. -/
def divisors (n : ℤ) : List ℤ :=
  ((List.range n.toNat).map fun i : ℕ => (i : ℤ) + 1).filter fun i => n.tmod i = 0

def roundUp (v a : ℤ) : ℤ := if a ≤ 1 then v else (v + a - 1).tdiv a * a

/-- Input extent of `t` consecutive outputs along one axis. -/
def footprint (t s k d : ℤ) : ℤ := (t - 1) * s + (k - 1) * d + 1

variable (c : Conv2dSpec)

/-- The dilation in effect (`D`). -/
def Conv2dSpec.dil : ℤ := if c.dilation > 0 then c.dilation else 1

def Conv2dSpec.ekh : ℤ := (c.kh - 1) * c.dil + 1

def Conv2dSpec.ekw : ℤ := (c.kw - 1) * c.dil + 1

variable (d : Derived)

def fillCost (h : Hints) (tgt : Target) : Derived :=
  let eb := tgt.elemBytes
  let ifmRoundBytes := d.tileH * d.tileW * d.cAlign * eb
  let wgtBytes := d.kRed * d.ocMesh * eb
  let ofmRoundBytes := d.ohT * d.owT * d.ocMesh * eb
  let dmaBytes := d.rounds * (ifmRoundBytes + ofmRoundBytes) + wgtBytes
  let macs := d.ohMesh * d.ow * d.ocMesh * d.kRed
  let footprintBytes := d.meshSliceH * ((d.wRounds - 1) * d.tileStepW + d.tileW) * d.cAlign * eb
  -- the core computes and copies its windows; the DMA overlaps when double-buffered
  let compute := Float.ofInt macs / tgt.macsPerCycle + Float.ofInt dmaBytes * tgt.copyCyclesPerByte
  let dma := Float.ofInt dmaBytes / tgt.dmaBytesPerCycle
  let overhead := Float.ofInt d.rounds * tgt.roundOverheadCycles
  let busy := if h.ppDepth ≥ 2 then (if compute < dma then dma else compute) else compute + dma
  { d with
    ifmRoundBytes, wgtBytes, ofmRoundBytes, dmaBytes, macs
    l1Bytes := h.ppDepth * (ifmRoundBytes + wgtBytes + ofmRoundBytes)
    haloFactor :=
      if footprintBytes > 0 then
        Float.ofInt d.rounds * Float.ofInt ifmRoundBytes / Float.ofInt footprintBytes
      else 0
    stackBytes := ifmRoundBytes + wgtBytes + ofmRoundBytes + tgt.kernelStackFixed
    estCycles := busy + overhead
    estMs := (busy + overhead) / (tgt.clockMhz * 1000.0) }

def policy (h : Hints) (p : PortSpace) : PortSpace :=
  { p with pad := h.pad, ppDepth := h.ppDepth, l1Budget := h.l1Budget }

/-- IFM: raw overlapping slabs, broadcast along each mesh row. -/
def ifmPort (c : Conv2dSpec) (h : Hints) : PortSpace :=
  let rows : TileDimOut :=
    { used := true, fullsize := d.hPad, tileRound := d.meshRows, tileSize := d.meshSliceH,
      stride := d.meshStepH }
  policy h
    { role := "IFM", act := "Broadcast", layout := "Row", im2col := h.im2col
      d1 :=
        if d.hRounds > 1 then
          { rows with l2Size := d.tileH, l2Stride := d.tileStepH, l2Rounds := d.hRounds }
        else rows
      d2 :=
        { used := true, fullsize := d.wPad, tileRound := d.wRounds, tileSize := d.tileW,
          stride := d.tileStepW }
      d3 :=
        { used := true, fullsize := d.cAlign, tileSize := d.cAlign, padsize := d.cAlign - c.c,
          hasStride := false } }

/-- WEIGHTS: filters split over mesh columns, broadcast along each. -/
def weightsPort (c : Conv2dSpec) (h : Hints) : PortSpace :=
  let whole (n : ℤ) : TileDimOut := { used := true, fullsize := n, tileSize := n, stride := n }
  policy h
    { role := "WEIGHTS", wgt := "Broadcast", layout := "Col", im2col := h.im2col
      d1 :=
        { used := true, fullsize := c.k, tileRound := d.meshCols, tileSize := d.ocMesh,
          stride := d.ocMesh }
      d2 := whole c.kw
      d3 := whole c.kh
      d4 := { whole d.cAlign with padsize := d.cAlign - c.c } }

/-- OFM: gathered per mesh row, merged left to right. -/
def ofmPort (c : Conv2dSpec) (h : Hints) : PortSpace :=
  let rows : TileDimOut :=
    { used := true, fullsize := d.oh, tileRound := d.meshRows, tileSize := d.ohMesh,
      stride := d.ohMesh }
  policy h
    { role := "OFM", layout := "Row", mergeOrder := "LeftToRight", im2col := 0
      group1Dim := 1
      group2Dim := 3
      d1 :=
        if d.hRounds > 1 then
          { rows with l2Size := d.ohT, l2Stride := d.ohT, l2Rounds := d.hRounds }
        else rows
      d2 :=
        { used := true, fullsize := d.ow, tileRound := d.wRounds, tileSize := d.owT,
          stride := d.owT }
      d3 :=
        { used := true, fullsize := c.k, tileRound := d.meshCols, tileSize := d.ocMesh,
          hasStride := false } }

def buildPorts (c : Conv2dSpec) (h : Hints) : Derived :=
  { d with ifm := ifmPort d c h, weights := weightsPort d c h, ofm := ofmPort d c h }

def buildKernelDefines (c : Conv2dSpec) : Derived :=
  { d with
    kernelDefines :=
      [("SP_KH", c.kh), ("SP_KW", c.kw), ("SP_C", d.cAlign), ("SP_S", c.stride), ("SP_K", d.kRed),
       ("SP_OW", d.ow), ("PAD_H", c.pad), ("PAD_W", c.pad), ("OH_T", d.ohT), ("OW_T", d.owT),
       ("SP_OHR", d.ohT), ("SP_OWR", d.owT), ("TILE_H", d.tileH), ("TILE_W", d.tileW),
       ("TILE_STRIDE_H", d.tileStepH), ("TILE_STRIDE_W", d.tileStepW), ("OUTPUT_FULL_H", d.oh),
       ("OUTPUT_FULL_W", d.ow), ("OUTPUT_FULL_C", c.k)] }

/-- Sizes of the padded input and of the output, and the mesh. -/
def fixedOutput (m : MappingSpec) (cAlign : ℤ) : Derived :=
  { cAlign
    hPad := c.h + 2 * c.pad
    wPad := c.w + 2 * c.pad
    kRed := c.kh * c.kw * cAlign
    oh := (c.h + 2 * c.pad - c.ekh).tdiv c.stride + 1
    ow := (c.w + 2 * c.pad - c.ekw).tdiv c.stride + 1
    meshRows := m.spaceRows.factor
    meshCols := m.spaceCols.factor }

/-- The share of a core and its time tile. -/
def fixedMesh (ohT owT : ℤ) : Derived :=
  { d with ohMesh := d.oh.tdiv d.meshRows, ocMesh := c.k.tdiv d.meshCols, ohT, owT }

/-- Rounds, slabs and steps. -/
def fixedRounds : Derived :=
  let hRounds := d.ohMesh.tdiv d.ohT
  let wRounds := d.ow.tdiv d.owT
  { d with
    hRounds, wRounds
    rounds := hRounds * wRounds
    tileH := footprint d.ohT c.stride c.kh c.dil
    tileStepH := d.ohT * c.stride
    tileW := footprint d.owT c.stride c.kw c.dil
    tileStepW := d.owT * c.stride
    meshSliceH := footprint d.ohMesh c.stride c.kh c.dil
    meshStepH := d.ohMesh * c.stride }

def complain (bad : Prop) [Decidable bad] (msg : String) : List String := if bad then [msg] else []

/-- Every read stays inside the padded input, and rounds tile the mesh slice. -/
def haloErrors : List String :=
  let lastRow := (d.meshRows - 1) * d.meshStepH + d.meshSliceH
  let lastCol := (d.wRounds - 1) * d.tileStepW + d.tileW
  complain (lastRow > d.hPad)
    ("halo: last mesh row reads input row " ++ toString lastRow ++ " > padded H " ++
      toString d.hPad) ++
  complain (lastCol > d.wPad)
    ("halo: last width chunk reads input col " ++ toString lastCol ++ " > padded W " ++
      toString d.wPad) ++
  complain ((d.hRounds - 1) * d.tileStepH + d.tileH ≠ d.meshSliceH)
    "halo: on-core rounds do not tile the mesh slice exactly"

/-- The memory and pipeline limits of the target. -/
def budgetErrors (h : Hints) (tgt : Target) : List String :=
  let linkBytes := 2 * (d.ifmRoundBytes + d.wgtBytes + d.ofmRoundBytes)
  let pipeBytes := h.ppDepth * h.l1Budget * 3
  complain (d.l1Bytes > tgt.dataMemBudget)
    ("L1: pp_depth*(ifm+wgt+ofm) = " ++ toString d.l1Bytes ++ " B exceeds the core data budget " ++
      toString tgt.dataMemBudget ++ " B") ++
  complain (tgt.stackBudget > 0 ∧ d.stackBytes > tgt.stackBudget - tgt.stackHeadroom)
    ("stack: kernel frame ~" ++ toString d.stackBytes ++ " B (local window copies) exceeds the " ++
      toString tgt.stackBudget ++ " B core stack minus " ++ toString tgt.stackHeadroom ++
      " B headroom") ++
  complain (tgt.requireWidthSplit = true ∧ d.wRounds < 2)
    ("pipeline: the spatial-halo conv path needs tile(OW, n) with n < OW=" ++ toString d.ow ++
      " (>= 2 on-core width rounds); one width round hits 'conv spatial-halo M-tile mismatch'") ++
  -- the kernel declares a ping and a pong array for every window whatever the depth
  complain (linkBytes + tgt.bufferReserve > tgt.bufferRegion)
    ("link: 2 x (ifm+wgt+ofm) = " ++ toString linkBytes ++
      " B (ping + pong are always declared) + " ++ toString tgt.bufferReserve ++
      " B (klog, statics) exceeds the " ++ toString tgt.bufferRegion ++
      " B port-buffer region of the core (the rest is stack)") ++
  complain (pipeBytes > tgt.dataMemBudget)
    ("pipeline: pp_depth x l1_budget x 3 tensors = " ++ toString pipeBytes ++
      " B exceeds the core data budget " ++ toString tgt.dataMemBudget ++
      " B (the pipeline sizes every buffer at l1_budget) -- smaller blocks or more mesh columns") ++
  if tgt.nonHaloPortsFitL1Budget then
    complain (d.ofmRoundBytes > h.l1Budget)
      ("pipeline: OFM tile " ++ toString d.ofmRoundBytes ++
        " B (oh_t*ow_t*oc) exceeds hints.l1_budget " ++ toString h.l1Budget ++
        " B; non-halo port buffers are clamped to l1_budget and chunked " ++
        "unevenly -- raise .l1_budget or shrink the time tile") ++
    complain (d.wgtBytes > h.l1Budget)
      ("pipeline: WEIGHTS tile " ++ toString d.wgtBytes ++ " B exceeds hints.l1_budget " ++
        toString h.l1Budget ++ " B")
  else []

/-- The derivation for a fully specified time tile. -/
def deriveFixed (m : MappingSpec) (tgt : Target) (cAlign ohT owT : ℤ) : Derived :=
  let d := fixedOutput c m cAlign
  if d.meshRows ≤ 0 ∨ d.oh.tmod d.meshRows ≠ 0 then
    { d with errors := ["space: OH=" ++ toString d.oh ++ " is not divisible by the mesh-row split " ++
        toString d.meshRows ++ " (tails are not supported by the spatial-halo path)"] }
  else if d.meshCols ≤ 0 ∨ c.k.tmod d.meshCols ≠ 0 then
    { d with errors := ["space: OC=" ++ toString c.k ++ " is not divisible by the mesh-col split " ++
        toString d.meshCols] }
  else
    let d := fixedMesh c d ohT owT
    if ohT ≤ 0 ∨ d.ohMesh.tmod ohT ≠ 0 then
      { d with errors := ["time: tile(OH," ++ toString ohT ++
          ") must divide the per-core output rows " ++ toString d.ohMesh] }
    else if owT ≤ 0 ∨ d.ow.tmod owT ≠ 0 then
      { d with errors := ["time: tile(OW," ++ toString owT ++ ") must divide OW=" ++ toString d.ow] }
    else
      let h := m.hints
      let d := fillCost (buildKernelDefines (buildPorts (fixedRounds c d) c h) c) h tgt
      let errors := haloErrors d ++ budgetErrors d h tgt
      { d with
        errors
        ok := errors.isEmpty
        notes := complain (d.ifmRoundBytes > h.l1Budget)
          ("IFM halo slab " ++ toString d.ifmRoundBytes ++ " B is above hints.l1_budget " ++
            toString h.l1Budget ++ " B (fine: the halo port is shipped whole, exempt from it)") }

def validateSpec (m : MappingSpec) : List String :=
  complain (c.h ≤ 0 ∨ c.w ≤ 0 ∨ c.c ≤ 0 ∨ c.k ≤ 0 ∨ c.kh ≤ 0 ∨ c.kw ≤ 0 ∨ c.stride ≤ 0 ∨ c.pad < 0)
    "conv: h, w, c, k, kh, kw, stride must be > 0 and pad >= 0" ++
  complain (m.spaceRows.axis ≠ .OH)
    ("space: mesh rows must split OH (got " ++ axisName m.spaceRows.axis ++
      "); the spatial-halo path carries the halo on the row axis") ++
  complain (m.spaceCols.axis ≠ .OC)
    ("space: mesh cols must split OC (got " ++ axisName m.spaceCols.axis ++
      "); IFM is broadcast along a mesh row and filters are split by column") ++
  m.time.flatMap (fun t => complain (t.axis ≠ .OH ∧ t.axis ≠ .OW)
    ("time: only tile(OH, n) and tile(OW, n) are supported (got " ++ axisName t.axis ++ ")")) ++
  complain (m.hints.pad ≠ 0) "hints: only PadMaterialize::DDR is supported by the spatial-halo path" ++
  complain (m.hints.ppDepth < 1) "hints: pp_depth must be >= 1"

def resolveCAlign (tgt : Target) (ov : Overrides) : ℤ :=
  if ov.cAlign > 0 then ov.cAlign
  else if c.cAlign > 0 then c.cAlign
  else roundUp c.c tgt.channelAlign

/-- The ranking of candidates: fewer cycles first, then less memory. -/
def ranksBefore (a b : Derived) : Bool :=
  if a.estCycles != b.estCycles then decide (a.estCycles < b.estCycles)
  else decide (a.l1Bytes < b.l1Bytes)

variable (conv : Conv2dSpec)

/-- All legal candidates, best first; the sort is stable. -/
def enumerateCandidates (mapping : MappingSpec) (tgt : Target) : List Derived :=
  if validateSpec conv mapping ≠ [] then []
  else
    let ca := resolveCAlign conv tgt {}
    let probe := deriveFixed conv mapping tgt ca 1 1
    if probe.ohMesh ≤ 0 then []
    else
      let out := (divisors probe.ohMesh).flatMap fun th => (divisors probe.ow).flatMap fun tw =>
        let d := deriveFixed conv mapping tgt ca th tw
        if d.ok then [d] else []
      out.mergeSort fun a b => !ranksBefore b a

/-- The tile size a mapping names for an axis: the last one, 0 for none. -/
def timeTile (time : List AxisSplit) (axis : Axis) : ℤ :=
  time.foldl (fun n t => if t.axis = axis then t.factor else n) 0

/-- A mapping with the tuner's hints. -/
def Overrides.applyHints (ov : Overrides) (m : MappingSpec) : MappingSpec :=
  { m with hints :=
      { m.hints with
        ppDepth := if ov.ppDepth > 0 then ov.ppDepth else m.hints.ppDepth
        l1Budget := if ov.l1Budget > 0 then ov.l1Budget else m.hints.l1Budget } }

/-- The derivation where the mapping gives no time tile: the best legal candidate. -/
def autotune (m : MappingSpec) (tgt : Target) (ca : ℤ) : Derived :=
  let cands := enumerateCandidates { conv with cAlign := ca } m tgt
  match cands with
  | [] =>
    let d := deriveFixed conv m tgt ca 1 1
    { d with ok := false,
             errors := d.errors ++ ["autotune: no legal time tile fits the core data budget"] }
  | d :: _ =>
    { d with
      timeAutotuned := true
      notes := d.notes ++ ["time tile autotuned by the analytical model: tile(OH," ++ toString d.ohT ++
        "), tile(OW," ++ toString d.owT ++ ") out of " ++ toString cands.length ++
        " legal candidates"] }

/-- Everything for one convolution and mapping. -/
def derive (mapping : MappingSpec) (tgt : Target) (ov : Overrides) : Derived :=
  let errs := validateSpec conv mapping
  if errs ≠ [] then { errors := errs }
  else
    let m := ov.applyHints mapping
    let ca := resolveCAlign conv tgt ov
    if ca < conv.c then { errors := ["c_align " ++ toString ca ++ " < C " ++ toString conv.c] }
    else if m.time = [] ∧ ov.timeOh = 0 ∧ ov.timeOw = 0 then autotune conv m tgt ca
    else
      let th := if ov.timeOh > 0 then ov.timeOh else timeTile m.time .OH
      let tw := if ov.timeOw > 0 then ov.timeOw else timeTile m.time .OW
      -- an omitted axis is not split on the core
      let probe := deriveFixed conv m tgt ca 1 1
      if probe.ohMesh ≤ 0 then probe
      else
        deriveFixed conv m tgt ca (if th ≤ 0 then probe.ohMesh else th)
          (if tw ≤ 0 then probe.ow else tw)

end AieHlc.Autotile
