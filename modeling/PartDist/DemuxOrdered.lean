import PartDist.Routing

/-!
# The Demux on streams in `partition_lsn` order

Without I/O failure, a worker that starts on the files `parwal` appends to each
partition's files exactly its records above the watermark the files had
(`demux_ordered_stream`).
-/

namespace PartDist

open Bytes PartWALHeader HighWater

/-- The share a fresh worker ends with. -/
theorem share_of_fresh (segsz : WalSegSize) {es : List LoopEvent}
    (hparts : (namedPartitions (walOf es)).card ≤ demuxMaxPartitions) (parwal : Parwal) (pid : Oid) :
    (demuxRun segsz (Demux.fresh parwal) es).share pid =
      es.foldl (shareStep segsz pid) (none, parwal pid) :=
  (share_run (fits_fresh parwal) (roomy_run _ (roomy_fresh hparts parwal) (Finset.Subset.refl _)).2).1 pid

/-- **Demux correctness.** Each partition's records above the watermark of its
initial files are appended in stream order, each to the segment file of its
`orig_node_lsn`, and nothing else is written. -/
theorem demux_ordered_stream (segsz : WalSegSize) (parwal : Parwal) (es : List LoopEvent) (rd : Readdir)
    (hinc : ∀ pid, Increasing lsn (partHeaders pid (walOf es)))
    (hparts : (namedPartitions (walOf es)).card ≤ demuxMaxPartitions)
    (hfiles : ∀ pid, (parwal pid).names.card ≤ maxScanFiles)
    (hio : ∀ e ∈ es, e.Ok) (pid : Oid) :
    let routed := (partHeaders pid (walOf es)).filter fun h =>
      decide (getLastWrittenPartitionLSN rd pid (parwal pid) < h.partitionLsn)
    (∀ s, ((demuxRun segsz (Demux.fresh parwal) es).parwal pid).content s =
        (parwal pid).content s ++
          encodeAll (routed.filter fun h => max 1 (h.origNodeLsn.toNat / segsz.bytes) = s)) ∧
      ((demuxRun segsz (Demux.fresh parwal) es).parwal pid).names =
        (parwal pid).names ∪ (routed.map (segnoOf segsz)).toFinset := by
  intro routed
  have hrun := clean_run_increasing segsz hio (scansFind_of_le hio (hfiles pid) rd) (hinc pid)
  rw [accepted_eq_filter (hinc pid), ← share_of_fresh _ hparts parwal pid] at hrun
  refine ⟨fun s => ?_, hrun.names⟩
  have hseg : (routed.filter fun h => max 1 (h.origNodeLsn.toNat / segsz.bytes) = s) =
      inSegment segsz s routed := by
    apply List.filter_congr
    intro h _
    rw [segnoOf_eq]
  rw [hseg]
  exact hrun.content s

/-- Two records in two segments, on an empty directory. -/
theorem demux_ordered_stream_two :
    let h := buildHeader 7 1 0 1
    let h' := buildHeader 7 1 (2 ^ 26) 2
    let es := [LoopEvent.record (insertedRecord h) (.succeeding .ascending),
      .record (insertedRecord h') (.succeeding .ascending)]
    ((demuxRun .default (Demux.fresh fun _ => Dir.empty) es).parwal 7).content 1 = h.encode ∧
      ((demuxRun .default (Demux.fresh fun _ => Dir.empty) es).parwal 7).content 4 = h'.encode := by
  intro h h' es
  have hpart : ∀ pid, partHeaders pid (walOf es) = if pid = 7 then [h, h'] else [] := by
    intro pid
    by_cases hp : pid = 7
    · simp [partHeaders, dataHeaders, walOf, es, LoopEvent.record?, h, h', hp]
    · have hne : ¬ (7 : Oid) = pid := fun h => hp h.symm
      simp [partHeaders, dataHeaders, walOf, es, LoopEvent.record?, h, h', hp, hne]
  have hinc : ∀ pid, Increasing lsn (partHeaders pid (walOf es)) := by
    intro pid
    rw [hpart]
    split
    · simp [Increasing, h, h']
    · exact List.Pairwise.nil
  have hrun := demux_ordered_stream .default (fun _ => Dir.empty) es .ascending hinc
    (by simp [namedPartitions, dataHeaders, walOf, es, LoopEvent.record?, h, h', demuxMaxPartitions])
    (fun pid => by simp)
    (by simp [es, LoopEvent.Ok, RecordIO.ok_succeeding]) 7
  have hmark : getLastWrittenPartitionLSN Readdir.ascending 7 Dir.empty = 0 := getLast_empty _ rfl
  simp only [hmark, hpart, if_true] at hrun
  obtain ⟨hcontent, -⟩ := hrun
  exact ⟨(hcontent 1).trans (by decide), (hcontent 4).trans (by decide)⟩

end PartDist
