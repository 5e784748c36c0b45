import Mathlib.Tactic
import ChronosUvm.Mem.GuestWrites

/-!
Two memories that a guest cannot tell apart. Their bytes and sizes agree; their dirty
sets may differ, but only in pages that are settled as they stand. A guest operation
does the same to both, because a page it changes is marked in both.
-/
namespace ChronosUvm
namespace MmapGuardedMemory
open Panicking

structure Alike (settled : ℕ → Page → Prop) (m m' : MmapGuardedMemory) : Prop where
  bytes_eq : m'.bytes = m.bytes
  size_eq : m'.sizeBytes = m.sizeBytes
  quota_eq : m'.quotaBytes = m.quotaBytes
  differ : ∀ p, m'.dirty.isDirty p ≠ m.dirty.isDirty p → settled p (m.pageBytes p)

namespace Alike
variable {settled : ℕ → Page → Prop} {m m' m₁ : MmapGuardedMemory}

theorem words_eq (h : Alike settled m m') : m'.dirty.bits.length = m.dirty.bits.length := by
  rw [m'.dirty.words_eq, m.dirty.words_eq, m'.capacity_eq, m.capacity_eq, h.quota_eq]

theorem mono (h : Alike settled m m') {settled' : ℕ → Page → Prop}
    (himp : ∀ p page, settled p page → settled' p page) : Alike settled' m m' :=
  ⟨h.bytes_eq, h.size_eq, h.quota_eq, fun p hp => himp p _ (h.differ p hp)⟩

/-- Marking a page in both settles it. -/
theorem markDirty {p : ℕ} (h : Alike (fun q page => q = p ∨ settled q page) m m')
    (hmark : m.markDirty p = .ok m₁) :
    ∃ m₁', m'.markDirty p = .ok m₁' ∧ Alike settled m₁ m₁' := by
  obtain ⟨hdirty, hbytes, hsize, hquota⟩ := markDirty_eq_ok hmark
  obtain ⟨d', hd'⟩ : ∃ d', m'.dirty.mark p = .ok d' := by
    apply DirtyPageSet.mark_returns
    rw [h.words_eq]
    exact DirtyPageSet.mark_lt hdirty
  obtain ⟨m₁', hmark'⟩ := markDirty_returns hd'
  obtain ⟨hdirty', hbytes', hsize', hquota'⟩ := markDirty_eq_ok hmark'
  refine ⟨m₁', hmark', by rw [hbytes', hbytes, h.bytes_eq], by rw [hsize', hsize, h.size_eq],
    by rw [hquota', hquota, h.quota_eq], ?_⟩
  intro q hq
  rw [DirtyPageSet.isDirty_mark hdirty', DirtyPageSet.isDirty_mark hdirty] at hq
  rw [pageBytes_congr hbytes]
  by_cases hqp : q = p
  · simp [hqp] at hq
  · rcases h.differ q (by simpa [hqp] using hq) with heq | hsettled
    · exact absurd heq hqp
    · exact hsettled

theorem markPages {pages : List ℕ} (h : Alike (fun q page => q ∈ pages ∨ settled q page) m m')
    (hmark : m.markPages pages = .ok m₁) :
    ∃ m₁', m'.markPages pages = .ok m₁' ∧ Alike settled m₁ m₁' := by
  induction pages generalizing m m' with
  | nil =>
    cases hmark
    exact ⟨m', rfl, h.mono fun q page hq => by simpa using hq⟩
  | cons p pages ih =>
    obtain ⟨m₂, hp, hmark⟩ := bind_returned.mp hmark
    have h' : Alike (fun q page => q = p ∨ q ∈ pages ∨ settled q page) m m' :=
      h.mono fun q page hq => by simpa [or_assoc] using hq
    obtain ⟨m₂', hp', h₂⟩ := h'.markDirty hp
    obtain ⟨m₁', hmark', h₁⟩ := ih h₂ hmark
    exact ⟨m₁', bind_returned.mpr ⟨m₂', hp', hmark'⟩, h₁⟩

theorem write {ptr len : UInt32} (h : Alike settled m m') (data : Bytes len.toNat) :
    Alike (fun q page => q ∈ storePages ptr len ∨ settled q page)
      (m.write ptr.toNat data) (m'.write ptr.toNat data) := by
  refine ⟨?_, h.size_eq, h.quota_eq, ?_⟩
  · simp only [MmapGuardedMemory.write, h.bytes_eq]
  · intro q hq
    by_cases hmem : q ∈ storePages ptr len
    · exact .inl hmem
    · right
      rw [write_pageBytes_of_untouched]
      · exact h.differ q hq
      · intro k hk hkq
        apply hmem
        unfold storePages
        simp only [List.mem_map, List.mem_range]
        exact ⟨k, hk, hkq⟩

theorem translate (h : Alike settled m m') (ptr len : UInt32) :
    m'.translate ptr len = m.translate ptr len := by
  unfold MmapGuardedMemory.translate
  simp only [h.size_eq]

theorem store {ptr len : UInt32} {data : Bytes len.toNat} {result : Except MemFault Unit}
    (h : Alike settled m m') (hstore : m.store ptr len data = .ok (result, m₁)) :
    ∃ m₁', m'.store ptr len data = .ok (result, m₁') ∧ Alike settled m₁ m₁' := by
  unfold MmapGuardedMemory.store at hstore ⊢
  rw [h.translate]
  cases happroved : m.translate ptr len with
  | error fault =>
    simp only [happroved] at hstore
    cases hstore
    exact ⟨m', rfl, h⟩
  | ok addr =>
    simp only [happroved] at hstore
    obtain ⟨m₂, hmarks, hstore⟩ := bind_returned.mp hstore
    cases hstore
    obtain ⟨-, rfl⟩ := translate_eq_ok.mp happroved
    obtain ⟨m₂', hmarks', h₂⟩ := (h.write data).markPages hmarks
    refine ⟨m₂', ?_, h₂⟩
    simp only [hmarks', ok_bind, pure_ok]

/-- A growth depends on the size and the quota only. -/
theorem grow_congr (hsize : m'.sizeBytes = m.sizeBytes) (hquota : m'.quotaBytes = m.quotaBytes)
    (d : UInt32) : (m'.grow d).1 = (m.grow d).1 ∧
      (m'.grow d).2.sizeBytes = (m.grow d).2.sizeBytes := by
  unfold MmapGuardedMemory.grow
  simp only [hsize, hquota]
  split_ifs <;> exact ⟨rfl, by first | exact hsize | rfl⟩

theorem grow (h : Alike settled m m') (d : UInt32) :
    (m'.grow d).1 = (m.grow d).1 ∧ Alike settled (m.grow d).2 (m'.grow d).2 := by
  obtain ⟨hresult, hsize⟩ := grow_congr h.size_eq h.quota_eq d
  refine ⟨hresult, by rw [grow_bytes, grow_bytes, h.bytes_eq], hsize,
    by rw [grow_quotaBytes, grow_quotaBytes, h.quota_eq], ?_⟩
  intro p hp
  rw [grow_dirty, grow_dirty] at hp
  rw [pageBytes_congr (grow_bytes m d)]
  exact h.differ p hp

/-- The same operations do the same to bytes and sizes. -/
theorem performs_view {ops : List MemOp} {m₁' : MmapGuardedMemory} (hbytes : m'.bytes = m.bytes)
    (hsize : m'.sizeBytes = m.sizeBytes) (hquota : m'.quotaBytes = m.quotaBytes)
    (hops : Performs m ops m₁) (hops' : Performs m' ops m₁') :
    m₁'.bytes = m₁.bytes ∧ m₁'.sizeBytes = m₁.sizeBytes := by
  induction hops generalizing m' with
  | nil =>
    cases hops'
    exact ⟨hbytes, hsize⟩
  | @write m _ ptr len data addr ops happroved _ ih =>
    cases hops' with
    | write happroved' hrest' =>
      obtain ⟨-, rfl⟩ := translate_eq_ok.mp happroved
      obtain ⟨-, rfl⟩ := translate_eq_ok.mp happroved'
      have hwritten : (m'.write ptr.toNat data).bytes = (m.write ptr.toNat data).bytes := by
        simp only [MmapGuardedMemory.write, hbytes]
      exact ih hwritten hsize hquota hrest'
  | markDirty hmark _ ih =>
    cases hops' with
    | markDirty hmark' hrest' =>
      obtain ⟨-, hbytes₁, hsize₁, hquota₁⟩ := markDirty_eq_ok hmark
      obtain ⟨-, hbytes₁', hsize₁', hquota₁'⟩ := markDirty_eq_ok hmark'
      exact ih (by rw [hbytes₁', hbytes₁, hbytes]) (by rw [hsize₁', hsize₁, hsize])
        (by rw [hquota₁', hquota₁, hquota]) hrest'
  | grow _ ih =>
    cases hops' with
    | grow hrest' =>
      apply ih _ _ _ hrest'
      · rw [grow_bytes, grow_bytes, hbytes]
      · exact (grow_congr hsize hquota _).2
      · rw [grow_quotaBytes, grow_quotaBytes, hquota]

/-- A quantum that marks every page it writes leaves the memories alike: a page that is dirty
in one of them only was so before, and has not been written. -/
theorem performs {ops : List MemOp} {m₁' : MmapGuardedMemory} (h : Alike settled m m')
    (hmarks : MarksWrites ops) (hops : Performs m ops m₁) (hops' : Performs m' ops m₁') :
    Alike settled m₁ m₁' := by
  obtain ⟨hbytes, hsize⟩ := performs_view h.bytes_eq h.size_eq h.quota_eq hops hops'
  refine ⟨hbytes, hsize, by rw [hops'.quota_eq, hops.quota_eq, h.quota_eq], ?_⟩
  intro p hp
  have hunmarked : MemOp.markDirty p ∉ ops := by
    intro hmem
    exact hp (((hops'.isDirty_iff p).mpr (.inl hmem)).trans
      ((hops.isDirty_iff p).mpr (.inl hmem)).symm)
  have huntouched : ¬ Touches ops p := by
    rintro ⟨ptr, len, data, hmem, k, hk, rfl⟩
    exact hunmarked (hmarks ptr len data hmem k hk)
  rw [hops.pageBytes_of_untouched huntouched]
  apply h.differ p
  intro heq
  apply hp
  rw [Bool.eq_iff_iff, hops'.isDirty_iff, hops.isDirty_iff, heq]

end Alike
end MmapGuardedMemory
end ChronosUvm
