/-
# The running statistics of the deduplication table

The table counts its entries, their consumers and their bytes as it goes. An entry that dies
with its last consumer is taken off the number of hashes and off no other total
(`dead_entry_stays_in_totals`); while no entry dies, the statistics are what counting the
entries gives (`stats_eq_recount`).
-/
import Tidefs.Dedup.Scanner

namespace Tidefs.Dedup
namespace DedupTable

open Word Ordered ExtentMap

variable {H : Type*} [LinearOrder H]

def total (f : DedupEntry H → ℕ) (t : DedupTable H) : ℕ := (t.entries.entries.map (f ·.2)).sum

/-- The statistics counted anew; the bytes saved are a running sum only. -/
def recount (t : DedupTable H) : DedupStats :=
  ⟨t.entries.entries.length, t.total (·.refcount), t.total (·.logicalBytes), t.total (·.physicalBytes),
    t.stats.bytesSaved⟩

/-- Calls that keep the sums below `2 ^ 64`. A removal takes no more than the bytes of the entry,
which have those of each outstanding consumer, and not the last consumer. -/
inductive Run : DedupTable H → Prop
  | new : Run .new
  | insert {t} (hash : H) (locator : LocatorId) (n p : ℕ) : Run t → t.recount.uniqueHashes + 1 < 2 ^ 64 →
      t.recount.totalRefcount + 1 < 2 ^ 64 → t.recount.logicalBytesTotal + n < 2 ^ 64 →
      t.recount.physicalBytesTotal + p < 2 ^ 64 → Run (t.insert hash locator n p).1
  | addConsumer {t} (hash : H) (locator : LocatorId) (n : ℕ) : Run t → t.recount.totalRefcount + 1 < 2 ^ 64 →
      t.recount.logicalBytesTotal + n < 2 ^ 64 → Run (t.addConsumer hash locator n).1
  | removeConsumer {t} (hash : H) (n : ℕ) : Run t →
      (∀ e, t.lookup hash = some e → n ≤ e.logicalBytes ∧ 1 < e.refcount) → Run (t.removeConsumer hash n).1

variable {t : DedupTable H} {hash : H} {e : DedupEntry H}

theorem le_total (f : DedupEntry H → ℕ) (he : t.lookup hash = some e) : f e ≤ t.total f :=
  List.le_sum_of_mem (List.mem_map_of_mem (OrdMap.get?_eq_some.mp he))

/-- A hash is bound and each total moves by the difference to the old entry. -/
theorem stats_bind (h : t.stats = t.recount) {s : DedupStats}
    (h1 : s.uniqueHashes + (t.lookup hash).elim 0 (fun _ => 1) = t.stats.uniqueHashes + 1)
    (h2 : s.totalRefcount + (t.lookup hash).elim 0 (·.refcount) = t.stats.totalRefcount + e.refcount)
    (h3 : s.logicalBytesTotal + (t.lookup hash).elim 0 (·.logicalBytes) = t.stats.logicalBytesTotal + e.logicalBytes)
    (h4 : s.physicalBytesTotal + (t.lookup hash).elim 0 (·.physicalBytes) =
      t.stats.physicalBytesTotal + e.physicalBytes) : s = recount ⟨t.entries.insert hash e, s⟩ := by
  have hsum f := OrdMap.sum_insert f t.entries hash e
  have hlen := OrdMap.length_insert t.entries hash e
  rw [h] at h1 h2 h3 h4
  obtain ⟨u, r, l, p, b⟩ := s
  simp only [recount, total, lookup, DedupStats.mk.injEq, and_true] at h1 h2 h3 h4 ⊢
  refine ⟨?_, ?_, ?_, ?_⟩
  · omega
  · have := hsum (·.refcount); omega
  · have := hsum (·.logicalBytes); omega
  · have := hsum (·.physicalBytes); omega

theorem satAdd_of_lt {a b : ℕ} (h : a + b < 2 ^ 64) : satAdd a b = a + b := by
  unfold satAdd u64Max
  omega

/-- **While no entry dies, the statistics are those counted anew from the entries.** -/
theorem stats_eq_recount (h : Run t) : t.stats = t.recount := by
  induction h with
  | new => rfl
  | @insert t hash locator n p _ h1 h2 h3 h4 ih =>
    rw [← ih] at h1 h2 h3 h4
    cases he : t.lookup hash with
    | some e => simpa only [DedupTable.insert, he] using ih
    | none =>
      simp only [DedupTable.insert, he, satAdd_of_lt, h1, h2, h3, h4]
      apply stats_bind ih <;> simp [he, DedupEntry.new]
  | @addConsumer t hash locator n _ h2 h3 ih =>
    cases he : t.lookup hash with
    | none => simpa only [DedupTable.addConsumer, he] using ih
    | some e =>
      have hr := (Nat.add_le_add_right (le_total (·.refcount) he) 1).trans_lt h2
      have hl := (Nat.add_le_add_right (le_total (·.logicalBytes) he) n).trans_lt h3
      rw [← ih] at h2 h3
      have hfields : ((e.addConsumer n).addLocator locator).refcount = e.refcount + 1 ∧
          ((e.addConsumer n).addLocator locator).logicalBytes = e.logicalBytes + n ∧
          ((e.addConsumer n).addLocator locator).physicalBytes = e.physicalBytes := by
        unfold DedupEntry.addLocator
        split_ifs <;> simp only [DedupEntry.addConsumer, satAdd_of_lt, hr, hl, and_self]
      simp only [DedupTable.addConsumer, satAdd_of_lt, h2, h3, he]
      apply stats_bind ih <;> simp only [hfields, he, Option.elim_some] <;> omega
  | @removeConsumer t hash n _ hmore ih =>
    cases he : t.lookup hash with
    | none => simpa only [DedupTable.removeConsumer, he] using ih
    | some e =>
      obtain ⟨hn, hcount⟩ := hmore e he
      have hle : e.refcount ≤ t.stats.totalRefcount ∧ e.logicalBytes ≤ t.stats.logicalBytesTotal := by
        rw [ih]
        exact ⟨le_total (·.refcount) he, le_total (·.logicalBytes) he⟩
      have halive : (e.removeConsumer n).2 = false := by
        simp only [DedupEntry.removeConsumer, beq_eq_false_iff_ne]
        omega
      simp only [DedupTable.removeConsumer, he, halive, Bool.false_eq_true, if_false]
      apply stats_bind ih <;> simp only [he, Option.elim_some, DedupEntry.removeConsumer] <;> omega

theorem stats_eq_recount_three_calls :
    let t := (((new.insert 7 1 10 8).1.addConsumer 7 2 6).1.removeConsumer (7 : ℕ) 10).1
    t.stats = t.recount :=
  stats_eq_recount (.removeConsumer 7 10 (.addConsumer 7 2 6 (.insert 7 1 10 8 .new (by decide) (by decide) (by decide)
    (by decide)) (by decide) (by decide)) fun _ he => by cases he; decide)

/-- The entry is gone and its consumer and bytes are still counted. -/
theorem dead_entry_stays_in_totals :
    let t := ((new.insert (7 : ℕ) 1 10 8).1.removeConsumer 7 10).1
    t.entries.entries.length = 0 ∧ t.stats = ⟨0, 1, 10, 8, 0⟩ := ⟨rfl, rfl⟩

end DedupTable
end Tidefs.Dedup
