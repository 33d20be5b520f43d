import Mathlib.Data.Int.Interval
import Mathlib.Algebra.Order.Ring.Int
import Mathlib.Tactic.Ring
import Sparrow.Library.Machine
import Sparrow.Model.Window

/-!
# The windows a time is assigned

`assign_tumble` and `assign_hop` compute with saturating arithmetic, and the loop of
`assign_hop` has two ways to stop early. Whatever they return are windows of the given
size with distinct starts; away from the ends of the 64-bit range a hopping assignment is
exactly the aligned windows that cover the time.

## What is proved

* `assignHop_exact` — a hopping assignment is exactly the windows that cover the time.
* `assignTumble_ok`, `assignHop_ok` — the windows have distinct starts and one size.
-/

namespace Sparrow.Model

open Library List

/-- What an assignment yields: windows of one size with distinct starts. Those of a
nonnegative time end after zero. -/
structure Windows (ts size : ℤ) (windows : List (ℤ × ℤ)) : Prop where
  starts : (windows.map Prod.fst).Nodup
  fits : ∀ p ∈ windows, fitsI64 p.1 = true
  stops : ∀ p ∈ windows, p.2 = satAddI p.1 size
  pos : 0 ≤ ts → ∀ p ∈ windows, 0 < p.2

theorem fitsI64_clampI64 (z : ℤ) : fitsI64 (clampI64 z) = true := by
  rw [fitsI64_iff, clampI64, i64Min, i64Max]
  omega

/-- What a hopping assignment yields: windows that end after the time. -/
structure HopWindows (ts size : ℤ) (windows : List (ℤ × ℤ)) : Prop extends Windows ts size windows where
  ahead : ∀ p ∈ windows, ts < p.2

theorem HopWindows.nil (ts size : ℤ) : HopWindows ts size [] := ⟨⟨nodup_nil, nofun, nofun, nofun⟩, nofun⟩

variable {ts size slide start : ℤ} {out windows : List (ℤ × ℤ)} {n overlap maxOverlap : ℕ}

theorem Windows.sublist {windows' : List (ℤ × ℤ)} (h : Windows ts size windows) (hs : windows'.Sublist windows) :
    Windows ts size windows' :=
  ⟨(hs.map Prod.fst).nodup h.starts, fun p hp => h.fits p (hs.subset hp),
    fun p hp => h.stops p (hs.subset hp), fun hts p hp => h.pos hts p (hs.subset hp)⟩

theorem HopWindows.concat (h : HopWindows ts size windows) (hn : start ∉ windows.map Prod.fst)
    (hf : fitsI64 start = true) (hc : ts < satAddI start size) :
    HopWindows ts size (windows ++ [(start, satAddI start size)]) := by
  refine ⟨⟨?_, forall_mem_concat.mpr ⟨h.fits, hf⟩, forall_mem_concat.mpr ⟨h.stops, rfl⟩, fun hts => ?_⟩,
    forall_mem_concat.mpr ⟨h.ahead, hc⟩⟩
  · rw [map_append]
    exact pairwise_concat.mpr ⟨h.starts, fun _ ha heq => hn (heq.subst ha)⟩
  · exact forall_mem_concat.mpr ⟨h.pos hts, hts.trans_lt hc⟩

theorem assignTumble_ok {size : Int64} {window : ℤ × ℤ} (h : assignTumble ts size = .ok window) :
    Windows ts size [window] := by
  unfold assignTumble at h
  split_ifs at h with hs
  cases h
  refine ⟨nodup_singleton _, ?_, ?_, ?_⟩ <;> simp only [mem_singleton, forall_eq]
  · exact fitsI64_clampI64 _
  · intro hts
    -- a nonnegative time has a nonnegative start
    have hst : 0 ≤ ts / (size : ℤ) * size := by
      have : 0 ≤ ts / (size : ℤ) := Int.ediv_nonneg hts (by omega)
      exact mul_nonneg this (by omega)
    simp only [satAddI, clampI64, i64Min, i64Max]
    omega

theorem assignTumble_start_eq {t t' : ℤ} {size : Int64} {window window' : ℤ × ℤ} (ht : 0 ≤ t ∧ t ≤ i64Max)
    (ht' : 0 ≤ t' ∧ t' ≤ i64Max) (h : assignTumble t size = .ok window) (h' : assignTumble t' size = .ok window')
    (hlt : t < window'.2) (hl' : t' < window.2) : window.1 = window'.1 := by
  unfold assignTumble at h h'
  split_ifs at h h' with hsi
  have hp : 0 < (size : ℤ) := by omega
  -- a start is at most its time, so that nothing saturates there, and an end is at most its sum
  have hst : ∀ {t : ℤ}, 0 ≤ t ∧ t ≤ i64Max → 0 ≤ t / size * size ∧ clampI64 (t / size * size) = t / size * size := by
    intro t ht
    have hle := Int.ediv_mul_le t hp.ne'
    have hn : 0 ≤ t / (size : ℤ) * size := mul_nonneg (Int.ediv_nonneg ht.1 hp.le) hp.le
    refine ⟨hn, ?_⟩
    simp only [clampI64, i64Min, i64Max] at ht ⊢
    omega
  have hq : ∀ {t t' : ℤ}, t < t' / size * size + size → t / size ≤ t' / size := by
    intro t t' hlt
    have hle := Int.ediv_mul_le t hp.ne'
    have hm : t / size * size < (t' / size + 1) * size := by rw [add_mul]; omega
    exact Int.lt_add_one_iff.mp (lt_of_mul_lt_mul_right hm hp.le)
  obtain ⟨hn, hs⟩ := hst ht
  obtain ⟨hn', hs'⟩ := hst ht'
  have he : ∀ {z : ℤ}, 0 ≤ z → satAddI z size ≤ z + size := by
    intro z hz
    simp only [satAddI, clampI64, i64Min, i64Max]
    omega
  cases h
  cases h'
  simp only [hs, hs'] at hlt hl' ⊢
  have hle := hq (hlt.trans_le (he hn'))
  have hle' := hq (hl'.trans_le (he hn))
  rw [le_antisymm hle hle']

theorem HopWindows.extend (ho : HopWindows ts size out) (hf : fitsI64 start = true) (hb : ∀ p ∈ out, start < p.1) :
    HopWindows ts size (if ts ≥ start ∧ ts < satAddI start size then out ++ [(start, satAddI start size)] else out) ∧
      ∀ p ∈ if ts ≥ start ∧ ts < satAddI start size then out ++ [(start, satAddI start size)] else out,
        start ≤ p.1 := by
  split_ifs with hc
  · constructor
    · refine ho.concat (fun hm => ?_) hf hc.2
      obtain ⟨p, hp, heq⟩ := List.mem_map.mp hm
      exact absurd (hb p hp) (by omega)
    · intro p hp
      obtain hp | rfl := by simpa using hp
      exacts [(hb p hp).le, le_rfl]
  · exact ⟨ho, fun p hp => (hb p hp).le⟩

theorem hopsFrom_ok (hsl : 0 ≤ slide) (hf : fitsI64 start = true) (ho : HopWindows ts size out)
    (hb : ∀ p ∈ out, start < p.1) (h : hopsFrom ts size slide maxOverlap n start out = .ok windows) :
    HopWindows ts size windows := by
  induction n generalizing start out with
  | zero => exact Except.ok.inj h ▸ ho
  | succ n ih =>
    rw [hopsFrom] at h
    by_cases hgo : start > satSubI ts size
    · obtain ⟨ho', hb'⟩ := ho.extend hf hb
      dsimp only at h
      generalize (if ts ≥ start ∧ ts < satAddI start size then out ++ [(start, satAddI start size)]
        else out) = out' at *
      split_ifs at h with hs
      · exact Except.ok.inj h ▸ ho'
      · -- a start that moves goes down
        have hn : satSubI start slide < start := by
          obtain ⟨hmi, hm⟩ := fitsI64_iff.mp hf
          unfold satSubI clampI64 at hs ⊢
          omega
        exact ih (fitsI64_clampI64 _) ho' (fun p hp => hn.trans_le (hb' p hp)) h
    · rw [if_neg hgo] at h
      exact Except.ok.inj h ▸ ho

theorem HopWindows.cons (h : HopWindows ts size windows) (hn : ¬ windows.any fun w => w.1 = start)
    (hf : fitsI64 start = true) (hc : ts < satAddI start size) :
    HopWindows ts size ((start, satAddI start size) :: windows) := by
  have hno : start ∉ windows.map Prod.fst := by simpa using hn
  refine ⟨⟨List.nodup_cons.mpr ⟨hno, h.starts⟩, ?_, ?_, fun hts => ?_⟩, ?_⟩
  · exact forall_mem_cons.mpr ⟨hf, h.fits⟩
  · exact forall_mem_cons.mpr ⟨rfl, h.stops⟩
  · exact forall_mem_cons.mpr ⟨hts.trans_lt hc, h.pos hts⟩
  · exact forall_mem_cons.mpr ⟨hc, h.ahead⟩

theorem hopOverlap_eq_ok {size slide : Int64} (h : hopOverlap size slide = .ok n) :
    0 < (size : ℤ) ∧ 0 < (slide : ℤ) ∧ (size : ℤ) ≤ n * slide := by
  unfold hopOverlap at h
  split_ifs at h with hp hz
  all_goals
    obtain ⟨hsi, hs⟩ := not_or.mp hp
    refine ⟨not_le.mp hsi, not_le.mp hs, ?_⟩
    have hd := Int.mul_ediv_add_emod (size : ℤ) slide
    dsimp only at h
    split_ifs at h with hr
    rw [← Except.ok.inj h, Int.toNat_of_nonneg (by omega)]
  · rw [mul_comm]
    omega
  · have hre := Int.emod_lt_of_pos (size : ℤ) (not_le.mp hs)
    rw [add_mul, mul_comm]
    omega

theorem assignHop_ok {size slide : Int64} (h : assignHop ts size slide maxOverlap = .ok windows) :
    HopWindows ts size windows := by
  obtain ⟨overlap, hov, h⟩ := bind_eq_ok.mp h
  replace h := after_check h
  obtain ⟨out, ho, h⟩ := bind_eq_ok.mp h
  have hf := fitsI64_clampI64 (ts / slide * slide)
  have hw := hopsFrom_ok (hopOverlap_eq_ok hov).2.1.le hf (.nil ts size) nofun ho
  split_ifs at h with hl
  · rw [← Except.ok.inj h]
    exact hw.cons hl.2.2 hf hl.2.1
  · exact Except.ok.inj h ▸ hw

/-! ### Which hopping windows -/

/-- A window of the size whose start is a multiple of the slide and that covers the time. -/
def Covers (ts size slide : ℤ) (p : ℤ × ℤ) : Prop := slide ∣ p.1 ∧ p.2 = p.1 + size ∧ p.1 ≤ ts ∧ ts < p.2

theorem hopsFrom_of_le (h : start ≤ satSubI ts size) :
    ∀ rounds, hopsFrom ts size slide maxOverlap rounds start out = .ok out
  | 0 => rfl
  | _ + 1 => if_neg (not_lt.mpr h)

/-- After `k` rounds, at an aligned start, the loop still adds the windows that cover the
time; it stops before its rounds or the cap run out, however many rounds it is given. -/
theorem hopsFrom_covers {k : ℕ} (hsi : 0 < size) (hsl : 0 < slide) (hov : size ≤ overlap * slide)
    (hca : overlap ≤ maxOverlap) (hlo : i64Min + size ≤ ts) (hh : ts + size ≤ i64Max) (ha : slide ∣ start)
    (hk : k + n = overlap + 1) (hs : start + k * slide ≤ ts) (hl : out.length ≤ k)
    (ho : ∀ p, p ∈ out ↔ Covers ts size slide p ∧ start < p.1) :
    ∃ windows, (∀ rounds, n ≤ rounds → hopsFrom ts size slide maxOverlap rounds start out = .ok windows) ∧
      ∀ p, p ∈ windows ↔ Covers ts size slide p := by
  simp only [i64Min, i64Max] at hlo hh
  have hsu : satSubI ts size = ts - size := by
    simp only [satSubI, clampI64, i64Min, i64Max]
    omega
  -- once the start is so low, no window from there on covers the time
  have hd : ∀ {start : ℤ} {out : List (ℤ × ℤ)},
      (∀ p, p ∈ out ↔ Covers ts size slide p ∧ start < p.1) → start ≤ ts - size →
      ∀ p, p ∈ out ↔ Covers ts size slide p := by
    intro start out ho hle p
    rw [ho p, and_iff_left_iff_imp]
    rintro ⟨-, hsto, -, hts⟩
    omega
  -- as many rounds as windows overlap bring it there
  have hf : ∀ {start : ℤ} {k : ℕ}, start + k * slide ≤ ts → overlap ≤ k → start ≤ ts - size := by
    intro start k hs hle
    have : (overlap : ℤ) * slide ≤ k * slide := mul_le_mul_of_nonneg_right (by omega) hsl.le
    omega
  induction n generalizing start out k with
  | zero =>
    have hle := hf hs (by omega)
    exact ⟨out, fun rounds _ => hopsFrom_of_le (hsu ▸ hle) rounds, hd ho hle⟩
  | succ n ih =>
    by_cases hgo : start ≤ ts - size
    · exact ⟨out, fun rounds _ => hopsFrom_of_le (hsu ▸ hgo) rounds, hd ho hgo⟩
    have hle : start ≤ ts := by
      have : 0 ≤ (k : ℤ) * slide := mul_nonneg (by omega) hsl.le
      omega
    have had : satAddI start size = start + size := by
      simp only [satAddI, clampI64, i64Min, i64Max]
      omega
    have hc : ts ≥ start ∧ ts < start + size := ⟨hle, by omega⟩
    have hro : k < overlap := by
      by_contra hge
      exact absurd (hf hs (by omega)) (by omega)
    have hl' : (out ++ [(start, start + size)]).length ≤ k + 1 := by simpa using hl
    have hs' : start - slide + ((k + 1 : ℕ) : ℤ) * slide ≤ ts := by
      push_cast
      rw [add_mul]
      omega
    have ho' : ∀ p, p ∈ out ++ [(start, start + size)] ↔ Covers ts size slide p ∧ start - slide < p.1 := by
      intro p
      rw [mem_append, mem_singleton, ho p]
      constructor
      · rintro (⟨hp, hlt⟩ | rfl)
        · exact ⟨hp, by omega⟩
        · exact ⟨⟨ha, rfl, hc.1, hc.2⟩, by omega⟩
      · -- between two aligned starts there is no third
        rintro ⟨hp, hlt⟩
        by_cases hab : start < p.1
        · exact .inl ⟨hp, hab⟩
        · right
          have hz : start - p.1 = 0 :=
            Int.eq_zero_of_dvd_of_nonneg_of_lt (by omega) (by omega) (Int.dvd_sub ha hp.1)
          have hsto := hp.2.1
          exact Prod.ext (by omega) (by simp only; omega)
    -- one round
    have hst : ∀ rounds, hopsFrom ts size slide maxOverlap (rounds + 1) start out =
        hopsFrom ts size slide maxOverlap rounds (satSubI start slide) (out ++ [(start, start + size)]) := by
      intro rounds
      have hmo : satSubI start slide ≠ start := by
        simp only [satSubI, clampI64, i64Min, i64Max]
        omega
      rw [hopsFrom, hsu, if_pos (not_le.mp hgo)]
      simp only [had, if_pos hc]
      rw [if_neg hmo, if_neg (by omega)]
    by_cases hfi : -2 ^ 63 ≤ start - slide
    · have hn : satSubI start slide = start - slide := by
        simp only [satSubI, clampI64, i64Min, i64Max]
        omega
      obtain ⟨windows, hho, hm⟩ := ih (Int.dvd_sub ha (Int.dvd_refl slide)) (by omega) hs' hl' ho'
      refine ⟨windows, fun rounds hr => ?_, hm⟩
      obtain ⟨rounds, rfl⟩ : ∃ r, rounds = r + 1 := ⟨rounds - 1, by omega⟩
      rw [hst, hn]
      exact hho rounds (by omega)
    · -- the start saturates below every window
      have hn : satSubI start slide ≤ satSubI ts size := by
        simp only [satSubI, clampI64, i64Min, i64Max]
        omega
      refine ⟨_, fun rounds hr => ?_, hd ho' (by omega)⟩
      obtain ⟨rounds, rfl⟩ : ∃ r, rounds = r + 1 := ⟨rounds - 1, by omega⟩
      rw [hst]
      exact hopsFrom_of_le hn rounds

theorem hopsFrom_last {size slide : Int64} (ho : hopOverlap size slide = .ok overlap)
    (hc : overlap ≤ maxOverlap) (hl : i64Min + size ≤ ts) (hh : ts + size ≤ i64Max) :
    ∃ windows, (∀ rounds, overlap < rounds →
        hopsFrom ts size slide maxOverlap rounds (ts / slide * slide) [] = .ok windows) ∧
      ∀ p, p ∈ windows ↔ Covers ts size slide p := by
  obtain ⟨hsi, hs, hsp⟩ := hopOverlap_eq_ok ho
  have hd := Int.mul_ediv_add_emod ts slide
  have hr := Int.emod_nonneg ts hs.ne'
  have hr' := Int.emod_lt_of_pos ts hs
  rw [mul_comm] at hd
  refine hopsFrom_covers (k := 0) (n := overlap + 1)
    hsi hs hsp hc hl hh (Int.dvd_mul_left (ts / (slide : ℤ)) slide) (by omega) (by omega) le_rfl ?_
  rintro p
  simp only [not_mem_nil, false_iff, not_and, not_lt]
  rintro ⟨⟨m, hm⟩, -, hle, -⟩
  -- an aligned start above the last one is above the time
  by_contra hgt
  have hz : p.1 - ts / slide * slide = 0 :=
    Int.eq_zero_of_dvd_of_nonneg_of_lt (by omega) (by omega)
      (Int.dvd_sub ⟨m, hm⟩ (Int.dvd_mul_left (ts / (slide : ℤ)) slide))
  omega

/-- **The hopping windows of a time are the aligned ones that cover it**, away from the ends
of the 64-bit range. They are what the loop finds: the last window is never left out. -/
theorem assignHop_covers {size slide : Int64} (ho : hopOverlap size slide = .ok overlap)
    (hc : overlap ≤ maxOverlap) (hg : (slide : ℤ) ≤ size) (hl : i64Min + size ≤ ts) (hh : ts + size ≤ i64Max) :
    ∃ windows, assignHop ts size slide maxOverlap = .ok windows ∧
      (∀ rounds, overlap < rounds → hopsFrom ts size slide maxOverlap rounds (ts / slide * slide) [] = .ok windows) ∧
      ∀ p, p ∈ windows ↔ Covers ts size slide p := by
  obtain ⟨-, hs, -⟩ := hopOverlap_eq_ok ho
  obtain ⟨windows, hho, hm⟩ := hopsFrom_last ho hc hl hh
  have hd := Int.mul_ediv_add_emod ts slide
  have hr := Int.emod_nonneg ts hs.ne'
  have hr' := Int.emod_lt_of_pos ts hs
  rw [mul_comm] at hd
  have hla : clampI64 (ts / slide * slide) = ts / slide * slide := by
    simp only [clampI64, i64Min, i64Max] at hl hh ⊢
    omega
  have hco : Covers ts size slide (ts / slide * slide, ts / slide * slide + size) :=
    ⟨Int.dvd_mul_left _ _, rfl, by omega, by omega⟩
  refine ⟨windows, ?_, hho, hm⟩
  have hf : windows.any (fun w => w.1 = ts / slide * slide) = true :=
    List.any_eq_true.mpr ⟨_, (hm _).mpr hco, by simp⟩
  refine bind_eq_ok.mpr ⟨overlap, ho, ?_⟩
  refine guard_eq_ok.mpr ⟨(by simpa using hc), ?_⟩
  rw [hla]
  refine bind_eq_ok.mpr ⟨windows, hho _ (Nat.lt_succ_self _), if_neg ?_⟩
  rintro ⟨-, -, hn⟩
  exact hn hf

/-! ### How many -/

theorem ceil_eq (hs : 0 < slide) :
    (size + slide - 1) / slide = if size % slide = 0 then size / slide else size / slide + 1 := by
  have hd := Int.mul_ediv_add_emod size slide
  have hr := Int.emod_nonneg size hs.ne'
  have hr' := Int.emod_lt_of_pos size hs
  split_ifs with hz
  · rw [show size + slide - 1 = (slide - 1) + slide * (size / slide) by omega,
      Int.add_mul_ediv_left _ _ hs.ne', Int.ediv_eq_zero_of_lt (by omega) (by omega), zero_add]
  · rw [show size + slide - 1 = (size % slide - 1) + slide * (size / slide + 1) by rw [mul_add]; omega,
      Int.add_mul_ediv_left _ _ hs.ne', Int.ediv_eq_zero_of_lt (by omega) (by omega), zero_add]

theorem sub_ediv_eq (hs : 0 < slide) :
    ts / slide - (ts - size) / slide = size / slide ∨
      ts / slide - (ts - size) / slide = (size + slide - 1) / slide := by
  have hts := Int.mul_ediv_add_emod ts slide
  have hsi := Int.mul_ediv_add_emod size slide
  have hr := Int.emod_lt_of_pos ts hs
  have hr' := Int.emod_lt_of_pos size hs
  have hn := Int.emod_nonneg ts hs.ne'
  have hn' := Int.emod_nonneg size hs.ne'
  by_cases hle : size % slide ≤ ts % slide
  · left
    have hz : (ts % slide - size % slide) / slide = 0 := Int.ediv_eq_zero_of_lt (by omega) (by omega)
    rw [show ts - size = (ts % slide - size % slide) + slide * (ts / slide - size / slide) by rw [mul_sub]; omega,
      Int.add_mul_ediv_left _ _ hs.ne', hz]
    omega
  · right
    have hz : (ts % slide - size % slide + slide) / slide = 0 := Int.ediv_eq_zero_of_lt (by omega) (by omega)
    rw [ceil_eq hs, if_neg (by omega),
      show ts - size = (ts % slide - size % slide + slide) + slide * (ts / slide - size / slide - 1) by
        rw [mul_sub, mul_sub]; omega,
      Int.add_mul_ediv_left _ _ hs.ne', hz]
    omega

theorem hopOverlap_eq_ceil {size slide : Int64} (hs : 0 < (slide : ℤ)) (hg : (slide : ℤ) ≤ size)
    (hm : ((size : ℤ) + slide - 1) / slide < 2 ^ 32) :
    hopOverlap size slide = .ok (((size : ℤ) + slide - 1) / slide).toNat := by
  have ho : 1 ≤ (size : ℤ) / slide := (Int.le_ediv_iff_mul_le hs).mpr (by omega)
  unfold hopOverlap
  rw [if_neg (by omega)]
  dsimp only
  rw [← ceil_eq hs, if_neg]
  have : (size : ℤ) / slide ≤ ((size : ℤ) + slide - 1) / slide := Int.ediv_le_ediv hs (by omega)
  omega

theorem length_covers (hs : 0 < slide) (hn : windows.Nodup) (hm : ∀ p, p ∈ windows ↔ Covers ts size slide p) :
    (windows.length : ℤ) = max (ts / slide - (ts - size) / slide) 0 := by
  have hi : windows.toFinset =
      (Finset.Ioc ((ts - size) / slide) (ts / slide)).image fun k => (slide * k, slide * k + size) := by
    ext p
    simp only [mem_toFinset, hm, Finset.mem_image, Finset.mem_Ioc]
    constructor
    · rintro ⟨⟨k, hk⟩, hst, hle, hlt⟩
      refine ⟨k, ⟨Int.ediv_lt_of_lt_mul hs ?_, (Int.le_ediv_iff_mul_le hs).mpr ?_⟩, Prod.ext hk.symm (by omega)⟩
      · rw [mul_comm]
        omega
      · rw [mul_comm]
        omega
    · rintro ⟨k, ⟨hlt, hle⟩, rfl⟩
      have hl' := (Int.le_ediv_iff_mul_le hs).mp hle
      have hlt' := Int.lt_mul_of_ediv_lt hs hlt
      rw [mul_comm] at hl' hlt'
      exact ⟨⟨k, rfl⟩, rfl, hl', by simp only; omega⟩
  have hin : Function.Injective fun k : ℤ => (slide * k, slide * k + size) := by
    intro a b hab
    exact mul_left_cancel₀ hs.ne' (Prod.mk.inj hab).1
  have hc := congrArg Finset.card hi
  rw [toFinset_card_of_nodup hn, Finset.card_image_of_injective _ hin, Int.card_Ioc] at hc
  rw [hc, Int.toNat_eq_max]

/-- **The hopping assignment is exact.** A time has one window for each multiple of the slide
that starts a window over it, and as many as fit the size, rounded down or up. The loop ends by
itself: it finds them in any number of rounds over the overlap, and the cap inside it is not reached. -/
theorem assignHop_exact {ts : ℤ} {size slide : Int64} {maxOverlap : ℕ} (hts : 0 ≤ ts) (hhigh : ts + size ≤ i64Max)
    (hslide : 0 < (slide : ℤ)) (hgap : (slide : ℤ) ≤ size) (hcap : ((size : ℤ) + slide - 1) / slide ≤ maxOverlap)
    (hmax : maxOverlap < 2 ^ 32) :
    ∃ windows, assignHop ts size slide maxOverlap = .ok windows ∧ windows.Nodup ∧
      (∀ p, p ∈ windows ↔ ∃ k : ℤ, p = (k * slide, k * slide + size) ∧ k * slide ≤ ts ∧ ts < k * slide + size) ∧
      ((windows.length : ℤ) = (size : ℤ) / slide ∨ (windows.length : ℤ) = ((size : ℤ) + slide - 1) / slide) ∧
      ∀ rounds : ℕ, ((size : ℤ) + slide - 1) / slide < rounds →
        hopsFrom ts size slide maxOverlap rounds (ts / slide * slide) [] = .ok windows := by
  have ho := hopOverlap_eq_ceil hslide hgap (by omega)
  have hno : 0 ≤ ((size : ℤ) + slide - 1) / slide := Int.ediv_nonneg (by omega) hslide.le
  have hs := toInt_le_i64Max size
  obtain ⟨windows, ha, hh, hm⟩ := assignHop_covers ho (Int.toNat_le.mpr hcap) hgap
    (by simp only [i64Min, i64Max] at hs ⊢; omega) hhigh
  have hn : windows.Nodup := .of_map _ (assignHop_ok ha).starts
  refine ⟨windows, ha, hn, fun p => ?_, ?_, fun rounds hr => hh rounds (by omega)⟩
  · rw [hm]
    constructor
    · rintro ⟨⟨k, hk⟩, hst, hle, hlt⟩
      rw [mul_comm] at hk
      exact ⟨k, Prod.ext hk (by simp only; omega), by omega, by omega⟩
    · rintro ⟨k, rfl, hle, hlt⟩
      exact ⟨Int.dvd_mul_left _ _, rfl, hle, hlt⟩
  · have hd := Int.ediv_le_ediv hslide (show ts - size ≤ ts by omega)
    rw [length_covers hslide hn hm, max_eq_left (by omega)]
    exact sub_ediv_eq hslide

theorem assignHop_exact_one : ∃ windows, assignHop 1 10 4 3 = .ok windows ∧ (0, 10) ∈ windows ∧ (-8, 2) ∈ windows ∧
    windows.length = 3 := by
  have hc : ((10 : Int64).toInt + (4 : Int64).toInt - 1) / (4 : Int64).toInt ≤ (3 : ℕ) := by decide
  obtain ⟨windows, ha, -, hm, -⟩ := assignHop_exact (show (0 : ℤ) ≤ 1 by decide) (by decide) (by decide) (by decide)
    hc (by decide)
  refine ⟨windows, ha, (hm _).mpr ⟨0, by decide⟩, (hm _).mpr ⟨-2, by decide⟩, ?_⟩
  obtain rfl : _ = windows := Except.ok.inj ha
  decide

end Sparrow.Model
