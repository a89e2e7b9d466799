/-
# The StatsD exporter

`StatsdExporter` formats metrics and raw points into lines, with the default
tags in front of the metric's own, and packs the lines into datagrams. The
datagrams of a call are its lines packed greedily into groups, each joined by
newlines (`sendLines_pack`, `sendLines_batched`), whatever an earlier call left
in the buffer. The socket is left out: `sendLines` gives what is passed to
`send_buffer`, which never fails.

Key definitions: `StatsdExporter.formatTags`, `StatsdExporter.sendMetrics`,
`StatsdExporter.sendRawPoints`, `StatsdExporter.sendLines`, `Batched`.
-/
import ChalkMetrics.Export.Display
import ChalkMetrics.Lib.Delimited
import ChalkMetrics.Lib.Packing

namespace ChalkMetrics

open Delimited Packing

inductive HistogramExportMode (F : Type) where
  | percentiles (percentiles : List F)
  | distribution

def HistogramExportMode.default {F : Type} [FloatOps F] : HistogramExportMode F :=
  .percentiles [0.5, 0.9, 0.95, 0.99]

/-- `buffer` is what the last call left. -/
structure StatsdExporter (F : Type) where
  namespacePrefix : Option Text
  defaultTags : List (Text × Text)
  histogramMode : HistogramExportMode F
  maxBufferSize : ℕ
  buffer : Text

/-- What the builder for a UDP address starts from, built at once. -/
def StatsdExporter.udp {F : Type} [FloatOps F] : StatsdExporter F :=
  ⟨none, [], .default, 1432, []⟩

/-- What the builder for a socket path starts from, built at once. -/
def StatsdExporter.uds {F : Type} [FloatOps F] : StatsdExporter F :=
  { StatsdExporter.udp with maxBufferSize := 8192 }

section Format

variable {F : Type} [FloatText F]

def formatDistributionLine (name : Text) (value : F) (tags : Text) : Text :=
  name ++ ':' :: (FloatText.display value ++ "|d".toList ++ tags)

/-- `as u32` saturates. -/
def formatPercentileLabel (p : F) : Text :=
  let pct := min (FloatOps.toU64 (FloatOps.round (p * 100.0))) (2 ^ 32 - 1)
  'p' :: displayNat pct

/-- The lines of the percentiles, each with the estimate. -/
def quantileLines (name tags : Text) (sketch : UDDSketch F) : List F → Option (List Text)
  | [] => some []
  | p :: percentiles => do
    let value ← sketch.estimateQuantile p
    let line := name ++ '.' :: (formatPercentileLabel p ++
      ':' :: (FloatText.display value ++ "|g".toList ++ tags))
    return line :: (← quantileLines name tags sketch percentiles)

namespace StatsdExporter

omit [FloatText F] in
def fullName (e : StatsdExporter F) (namespacePath : List Text) (metricName : Text) : Text :=
  ['.'].intercalate (e.namespacePrefix.toList ++ namespacePath ++ [metricName])

omit [FloatText F] in
def formatTags (e : StatsdExporter F) (metricTags : List (Text × Text)) : Text :=
  let allTags := e.defaultTags ++ metricTags
  if allTags.isEmpty then []
  else "|#".toList ++ [','].intercalate (allTags.map fun p => p.1 ++ ':' :: p.2)

/-- The lines of one metric. -/
def metricLines (e : StatsdExporter F) (metric : FlushedMetric (BitVec 64) F) :
    Option (List Text) :=
  let name := e.fullName metric.namespacePath metric.metricName.text
  let tags := e.formatTags metric.tags.pairs
  match metric.value with
  | .count value => some [name ++ ':' :: (displayInt value.toInt ++ "|c".toList ++ tags)]
  | .gauge value => some [name ++ ':' :: (FloatText.display value ++ "|g".toList ++ tags)]
  | .histogram sketch =>
    match e.histogramMode with
    | .distribution => some [formatDistributionLine name sketch.mean tags]
    | .percentiles percentiles => do
      let quantiles ← quantileLines name tags sketch percentiles
      return [name ++ ".count:".toList ++ (displayNat sketch.count ++ "|g".toList ++ tags),
        name ++ ".avg:".toList ++ (FloatText.display sketch.mean ++ "|g".toList ++ tags)] ++ quantiles

def metricsLines (e : StatsdExporter F) : List (FlushedMetric (BitVec 64) F) → Option (List Text)
  | [] => some []
  | metric :: metrics => do
    let ls ← e.metricLines metric
    return ls ++ (← e.metricsLines metrics)

def pointLine (e : StatsdExporter F) (point : RawDistributionPoint F) : Text :=
  formatDistributionLine (e.fullName point.namespacePath point.metricName.text) point.value
    (e.formatTags point.tags.pairs)

end StatsdExporter
end Format

/-! ### Datagrams -/

/-- `str::len` counts bytes. -/
def byteLen (t : Text) : ℕ := (t.map Char.utf8Size).sum

/-- What has been sent, and the buffer. -/
abbrev Sending := List Text × Text

/-- A line that would make the buffer too long is put into the next datagram. -/
def pushLine (maxBufferSize : ℕ) (s : Sending) (line : Text) : Sending :=
  let s : Sending :=
    if !s.2.isEmpty && byteLen s.2 + 1 + byteLen line > maxBufferSize then
      (s.1 ++ [s.2], [])
    else s
  let buffer := if s.2.isEmpty then s.2 else s.2 ++ ['\n']
  (s.1, buffer ++ line)

namespace StatsdExporter

variable {F : Type}

/-- The datagrams passed to `send_buffer`, and the exporter after. -/
def sendLines (e : StatsdExporter F) (lines : List Text) : List Text × StatsdExporter F :=
  let s := lines.foldl (pushLine e.maxBufferSize) ([], [])
  (if s.2.isEmpty then s.1 else s.1 ++ [s.2], { e with buffer := s.2 })

def sendMetrics [FloatText F] (e : StatsdExporter F) (metrics : List (FlushedMetric (BitVec 64) F)) :
    Option (List Text × StatsdExporter F) := do
  return e.sendLines (← e.metricsLines metrics)

def sendRawPoints [FloatText F] (e : StatsdExporter F) (points : List (RawDistributionPoint F)) :
    List Text × StatsdExporter F :=
  e.sendLines (points.map e.pointLine)

end StatsdExporter

theorem join_eq_nil {group : List Text} (h : ∀ l ∈ group, l ≠ []) :
    ['\n'].intercalate group = [] ↔ group = [] := by
  constructor
  · intro hj
    rcases group with _ | ⟨l, group⟩
    · rfl
    · exfalso
      have hl := h l List.mem_cons_self
      rcases group with _ | ⟨l', group⟩
      · rw [List.intercalate_singleton] at hj
        exact hl hj
      · rw [List.intercalate_cons_cons] at hj
        simp at hj
  · rintro rfl
    rfl

theorem pushLine_first {n : ℕ} {s : Sending} (h : s.2 = []) (line : Text) :
    pushLine n s line = (s.1, line) := by
  simp [pushLine, h]

theorem pushLine_full {n : ℕ} {s : Sending} {line : Text} (h : s.2 ≠ [])
    (hlen : n < byteLen s.2 + 1 + byteLen line) : pushLine n s line = (s.1 ++ [s.2], line) := by
  simp [pushLine, h, hlen]

theorem pushLine_fits {n : ℕ} {s : Sending} {line : Text} (h : s.2 ≠ [])
    (hlen : byteLen s.2 + 1 + byteLen line ≤ n) :
    pushLine n s line = (s.1, s.2 ++ '\n' :: line) := by
  simp [pushLine, h, Nat.not_lt.mpr hlen]

theorem byteLen_append (s t : Text) : byteLen (s ++ t) = byteLen s + byteLen t := by
  simp [byteLen]

theorem byteLen_join : ∀ group : List Text, byteLen (['\n'].intercalate group) = width byteLen 1 group
  | [] => rfl
  | [l] => by
    rw [List.intercalate_singleton]
    rfl
  | l :: l' :: group => by
    have hnl : byteLen ['\n'] = 1 := rfl
    rw [List.intercalate_cons_cons, byteLen_append, byteLen_append, hnl,
      byteLen_join (l' :: group), width]

/-- What has been sent and buffered of lines in groups. -/
def Sending.of (s : Placing Text) : Sending :=
  (s.1.map (['\n'].intercalate ·), ['\n'].intercalate s.2)

/-- Pushing a line is placing it. -/
theorem pushLine_place {n : ℕ} {s : Placing Text} (hne : ∀ l ∈ s.2, l ≠ []) (line : Text) :
    pushLine n (Sending.of s) line = Sending.of (place byteLen 1 n s line) := by
  obtain ⟨closed, group⟩ := s
  have hbuf : (Sending.of (closed, group)).2 = [] ↔ group = [] := join_eq_nil hne
  have hlen : byteLen (Sending.of (closed, group)).2 = width byteLen 1 group := byteLen_join group
  unfold place
  by_cases hg : group = []
  · rw [pushLine_first (hbuf.mpr hg), if_neg fun h => h.1 hg, hg]
    simp [Sending.of]
  by_cases hfull : n < width byteLen 1 group + 1 + byteLen line
  · rw [pushLine_full (mt hbuf.mp hg) (by rwa [hlen]), if_pos ⟨hg, hfull⟩]
    simp [Sending.of]
  · rw [pushLine_fits (mt hbuf.mp hg) (by rw [hlen]; exact not_lt.mp hfull),
      if_neg fun h => hfull h.2]
    simp [Sending.of, join_concat hg]

theorem foldl_pushLine {n : ℕ} (lines : List Text) (hne : ∀ l ∈ lines, l ≠ []) :
    lines.foldl (pushLine n) ([], []) = Sending.of (lines.foldl (place byteLen 1 n) ([], [])) := by
  induction lines using List.reverseRecOn with
  | nil => rfl
  | append_singleton lines line ih =>
    have hne' : ∀ l ∈ lines, l ≠ [] := fun l hl => hne l (List.mem_append_left _ hl)
    rw [List.foldl_append, List.foldl_append, ih hne']
    exact pushLine_place (fun l hl => hne' l ((placed_foldl lines).mem hl)) line

/-- **The datagrams are the lines packed greedily**, each group joined by newlines. -/
theorem StatsdExporter.sendLines_pack {F : Type} (e : StatsdExporter F) {lines : List Text}
    (hne : ∀ l ∈ lines, l ≠ []) :
    (e.sendLines lines).1 = (pack byteLen 1 e.maxBufferSize lines).map (['\n'].intercalate ·) := by
  set s := lines.foldl (place byteLen 1 e.maxBufferSize) ([], []) with hs
  have hopen : ∀ l ∈ s.2, l ≠ [] := fun l hl => hne l ((placed_foldl lines).mem hl)
  simp only [sendLines, foldl_pushLine lines hne, pack, Placing.groups, ← hs, Sending.of,
    List.isEmpty_iff, join_eq_nil hopen]
  split_ifs
  · rfl
  · rw [List.map_append, List.map_singleton]

/-- **The datagrams are the lines cut into groups**, each joined by newlines. -/
theorem StatsdExporter.sendLines_cut {F : Type} (e : StatsdExporter F) {lines : List Text}
    (hne : ∀ l ∈ lines, l ≠ []) :
    ∃ groups : List (List Text), (e.sendLines lines).1 = groups.map (['\n'].intercalate ·) ∧
      [] ∉ groups ∧ groups.flatten = lines :=
  ⟨_, e.sendLines_pack hne, (greedy_pack lines).nonempty, (greedy_pack lines).flatten⟩

/-- **Splitting the datagrams gives the lines back** just when no line has a newline. -/
theorem StatsdExporter.split_sendLines_iff {F : Type} (e : StatsdExporter F) {lines : List Text}
    (hne : ∀ l ∈ lines, l ≠ []) :
    (e.sendLines lines).1.flatMap (List.splitOn '\n') = lines ↔ ∀ l ∈ lines, '\n' ∉ l := by
  constructor
  · intro h l hl
    rw [← h] at hl
    obtain ⟨d, -, hl⟩ := List.mem_flatMap.mp hl
    exact not_mem_of_mem_splitOn hl
  · intro h
    obtain ⟨groups, hd, hgroups, rfl⟩ := e.sendLines_cut hne
    rw [hd, List.flatMap_map]
    have hsplit : ∀ g ∈ groups, (['\n'].intercalate g).splitOn '\n' = g := fun g hg =>
      (splitOn_join_iff fun hn => hgroups (hn ▸ hg)).mpr
        fun l hl => h l (List.mem_flatten.mpr ⟨g, hg, hl⟩)
    rw [List.flatMap_congr hsplit, List.flatMap_id']

/-- The datagrams sent for `lines`: the `i`-th carries the `i`-th group. -/
structure Batched (maxBufferSize : ℕ) (lines : List Text) (groups : List (List Text))
    (datagrams : List Text) : Prop where
  joined : ['\n'].intercalate datagrams = ['\n'].intercalate lines
  whole : datagrams = groups.map (['\n'].intercalate ·)
  consecutive : groups.flatten = lines
  nonempty : ∀ d ∈ datagrams, d ≠ []
  fits : ∀ g ∈ groups, byteLen (['\n'].intercalate g) ≤ maxBufferSize ∨
    ∃ l, g = [l] ∧ maxBufferSize < byteLen l
  greedy : ∀ (i : ℕ) (g g' : List Text), groups[i]? = some g → groups[i + 1]? = some g' →
    ∃ l rest, g' = l :: rest ∧ maxBufferSize < byteLen (['\n'].intercalate g) + 1 + byteLen l

/-- Greedy packings of lines are batches. -/
theorem Batched.of_greedy {n : ℕ} {lines : List Text} {groups : List (List Text)}
    (h : Greedy byteLen 1 n lines groups) (hne : ∀ l ∈ lines, l ≠ []) :
    Batched n lines groups (groups.map (['\n'].intercalate ·)) := by
  refine ⟨?_, rfl, h.flatten, ?_, ?_, ?_⟩
  · rw [join_flatten h.nonempty, h.flatten]
  · intro d hd hempty
    obtain ⟨g, hg, rfl⟩ := List.mem_map.mp hd
    have hlines : ∀ l ∈ g, l ≠ [] := fun l hl =>
      hne l (h.flatten ▸ List.mem_flatten.mpr ⟨g, hg, hl⟩)
    exact h.nonempty ((join_eq_nil hlines).mp hempty ▸ hg)
  · intro g hg
    by_cases hsize : byteLen (['\n'].intercalate g) ≤ n
    · exact .inl hsize
    · right
      obtain ⟨l, rfl⟩ := (h.fits g hg).resolve_left (by rwa [← byteLen_join])
      rw [List.intercalate_singleton] at hsize
      exact ⟨l, rfl, not_le.mp hsize⟩
  · intro i g g' hg hg'
    obtain ⟨l, rest, rfl⟩ := List.exists_cons_of_ne_nil fun h0 : g' = [] =>
      h.nonempty (h0 ▸ List.mem_of_getElem? hg')
    obtain ⟨hi, rfl⟩ := List.getElem?_eq_some_iff.mp hg
    obtain ⟨hi', hget⟩ := List.getElem?_eq_some_iff.mp hg'
    have hroom := List.isChain_iff_getElem.mp h.full i hi' l (by rw [hget]; rfl)
    rw [← byteLen_join] at hroom
    exact ⟨l, rest, rfl, hroom⟩

/-- Batches are greedy packings of lines. -/
theorem Batched.packing {n : ℕ} {lines datagrams : List Text} {groups : List (List Text)}
    (h : Batched n lines groups datagrams) : Greedy byteLen 1 n lines groups := by
  obtain ⟨-, rfl, hflat, hne, hfits, hgreedy⟩ := h
  refine ⟨hflat, fun hmem => hne _ (List.mem_map_of_mem hmem) rfl, fun g hg => ?_, ?_⟩
  · rw [← byteLen_join]
    exact (hfits g hg).imp_right fun ⟨l, hl, _⟩ => ⟨l, hl⟩
  · rw [List.isChain_iff_getElem]
    intro i hi l hl
    obtain ⟨l', rest, hcons, hroom⟩ := hgreedy i _ _ (List.getElem?_eq_getElem (by omega))
      (List.getElem?_eq_getElem hi)
    obtain rfl : l' = l := by simpa [hcons] using hl
    rwa [← byteLen_join]

/-- **Batching loses, doubles and moves nothing and fills every datagram.** -/
theorem StatsdExporter.sendLines_batched {F : Type} (e : StatsdExporter F) (lines : List Text)
    (hne : ∀ l ∈ lines, l ≠ []) :
    ∃ groups, Batched e.maxBufferSize lines groups (e.sendLines lines).1 := by
  rw [e.sendLines_pack hne]
  exact ⟨_, .of_greedy (greedy_pack lines) hne⟩

/-- Two counters fit, the long gauge does not, whatever is in the buffer. -/
theorem sendLines_batched_three :
    ∃ groups, Batched 12 ["a:1|c".toList, "bb:2|c".toList, "temperature:3|g".toList] groups
      ((⟨none, [], .distribution, 12, "stale".toList⟩ : StatsdExporter F64).sendLines
        ["a:1|c".toList, "bb:2|c".toList, "temperature:3|g".toList]).1 :=
  StatsdExporter.sendLines_batched ⟨none, [], .distribution, 12, "stale".toList⟩ _ (by decide)

/-- There is no other way to batch the lines. -/
theorem StatsdExporter.sendLines_eq_iff {F : Type} (e : StatsdExporter F) {lines : List Text}
    (hne : ∀ l ∈ lines, l ≠ []) {datagrams : List Text} :
    (e.sendLines lines).1 = datagrams ↔ ∃ groups, Batched e.maxBufferSize lines groups datagrams := by
  rw [e.sendLines_pack hne]
  constructor
  · rintro rfl
    exact ⟨_, .of_greedy (greedy_pack lines) hne⟩
  · rintro ⟨groups, h⟩
    rw [(greedy_pack lines).unique h.packing, h.whole]

end ChalkMetrics
