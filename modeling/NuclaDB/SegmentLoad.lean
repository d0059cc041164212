import NuclaDB.HnswRestored
import NuclaDB.SegmentRoundTrip

/-!
# What the loader lets through

Whatever bytes a file holds, a graph that the loader returns is well formed.
-/

namespace NuclaDB.Segment
open LittleEndian Hnsw Cursor
open Decoder (cursor_bind cursor_pure cursor_failIf)

variable {D : Type} [Hnsw.Dist D] {cfg : Config D} {rng : ℕ → ℕ} {g : Graph D} {seq : UInt64}
variable {file : Option Bytes}

theorem skipNodes_length {dim n i : ℕ} {bytes left : Bytes} {ids : List UInt64}
    (h : (skipNodes dim n i).cursor bytes = .ok (ids, left)) : ids.length = n := by
  induction n generalizing i bytes left ids with
  | zero =>
    simp only [skipNodes, cursor_pure, pure_eq_ok, Prod.mk.injEq] at h
    simp [← h.1]
  | succ n ih =>
    simp only [skipNodes, cursor_bind, cursor_pure, bind_eq_ok, pure_eq_ok, Prod.mk.injEq] at h
    obtain ⟨_, _, -, _, _, -, rest, _, hrest, rfl, -⟩ := h
    rw [List.length_cons, ih hrest]

omit [Hnsw.Dist D] in
theorem readHeader_entry {v2 : Bool} {size : ℕ} {bytes left : Bytes} {header : Header}
    (h : (readHeader cfg v2 size).cursor bytes = .ok (header, left)) :
    header.maxLevel ≤ maxSnapshotLevel ∧ header.hasEntry = decide (0 < header.nodeCount) := by
  have hlast : ∀ {maxLevel : ℤ} {hasEntry : Bool} {count : ℕ},
      ¬(maxLevel < 0 ∨ (maxSnapshotLevel : ℤ) < maxLevel ∨ hasEntry ≠ decide (0 < count)) →
      maxLevel.toNat ≤ maxSnapshotLevel ∧ hasEntry = decide (0 < count) := by
    intro maxLevel hasEntry count hok
    simp only [not_or, not_lt, not_not] at hok
    exact ⟨by omega, hok.2.2⟩
  cases v2 with
  | false =>
    simp only [readHeader, Bool.false_eq_true, if_false, cursor_bind, cursor_failIf, cursor_pure, bind_eq_ok,
      failIf_eq_ok, pure_eq_ok] at h
    obtain ⟨_, _, -, _, _, -, _, _, -, _, _, -, _, _, -, _, _, -, _, _, ⟨hok, -⟩, heq⟩ := h
    rw [Prod.mk.injEq] at heq
    rw [← heq.1]
    exact hlast hok
  | true =>
    simp only [readHeader, if_true, cursor_bind, cursor_failIf, cursor_pure, bind_eq_ok, failIf_eq_ok,
      pure_eq_ok] at h
    obtain ⟨_, _, -, _, _, -, _, _, -, _, _, -, _, _, -, _, _, -, _, _, -, _, _, ⟨hok, -⟩, heq⟩ := h
    rw [Prod.mk.injEq] at heq
    rw [← heq.1]
    exact hlast hok

theorem restoreNodes_sound {ids : List UInt64} {n : ℕ} {r r' : Restore D} {bytes left : Bytes}
    (hr : r.Sound ids) (h : restoreNodes n r bytes = .ok (r', left)) : r'.Sound ids :=
  restoreNodes_induction (P := fun r => r.Sound ids)
    (fun hr hlevel hnode => hr.restoreNode hlevel hnode) hr h

theorem loadBody_wf {v2 : Bool} {body : Bytes}
    (h : loadBody cfg rng v2 body = .ok (g, seq)) : g.WF := by
  obtain ⟨header, nodes, ids, r, r', left, hheader, hids, hr, hr', hg, -⟩ := loadBody_eq_ok.mp h
  obtain ⟨hlevel, hentry⟩ := readHeader_entry hheader
  rw [← skipNodes_length hids] at hentry
  exact (restoreNodes_sound (Restore.sound_begin hr) hr').endRestore hlevel hentry hg

section
variable (h : load cfg rng file = .ok (g, seq))
include h

theorem load_cases :
    (g = new cfg rng ∧ seq = 0) ∨ ∃ v2 body, loadBody cfg rng v2 body = .ok (g, seq) := by
  simp only [load] at h
  split at h
  · simp only [pure, Except.pure, Except.ok.injEq, Prod.mk.injEq] at h
    exact .inl ⟨h.1.symm, h.2.symm⟩
  · right
    split at h
    · simp [throw, throwThe, MonadExceptOf.throw, bind, Except.bind] at h
    · split at h
      · split at h
        · simp [throw, throwThe, MonadExceptOf.throw, bind, Except.bind] at h
        · split at h
          · simp [throw, throwThe, MonadExceptOf.throw, bind, Except.bind] at h
          · exact ⟨true, _, h⟩
      · split at h
        · exact ⟨false, _, h⟩
        · simp [throw, throwThe, MonadExceptOf.throw] at h

theorem load_wf : g.WF := by
  rcases load_cases h with ⟨rfl, -⟩ | ⟨v2, body, hbody⟩
  · exact Graph.new_wf cfg rng
  · exact loadBody_wf hbody

theorem load_settings : g.settings = (new cfg rng).settings := by
  rcases load_cases h with ⟨rfl, -⟩ | ⟨v2, body, hbody⟩
  · rfl
  · obtain ⟨header, nodes, ids, r, r', left, -, -, hr, hr', hg, -⟩ := loadBody_eq_ok.mp hbody
    obtain ⟨slots, -, rfl⟩ := Option.map_eq_some_iff.mp hr
    rw [(Restore.endRestore_tables hg).2]
    exact restoreNodes_induction (P := fun r => r.graph.settings = (new cfg rng).settings)
      (fun hr _ hnode => (Restore.restoreNode_settings hnode).trans hr) rfl hr'

end

end NuclaDB.Segment
