import GlusterFS.Core.Intervals
import GlusterFS.Dht.Layout

/-!
# Holes and overlaps in a layout

`dht_layout_anomalies` walks over the entries of a sorted layout and compares the start of
each range with the end of the one before it, in 32-bit arithmetic.  When it reports
neither a hole nor an overlap, each hash is in one range; a second range of all the hashes
is not seen, because the end of such a range is also the one before its start.
-/

namespace GlusterFS.Dht

open Intervals

/-! ## The code -/

def enotconn : Int := 107

/-- What `dht_layout_anomalies` returns through its arguments. -/
structure Anomalies where
  holes : Nat
  overlaps : Nat
  missing : Nat
  down : Nat
  misc : Nat
  noSpace : Nat

/-- The state of the loop. -/
structure AnomalyScan extends Anomalies where
  prevStop : UInt32
  isVirgin : Bool

/-- The loop body from `is_virgin = 0` on. -/
def rangeTurn (scan : AnomalyScan) (entry : LayoutEntry) : AnomalyScan :=
  { scan with
    isVirgin := false
    holes := if scan.prevStop + 1 < entry.start then scan.holes + 1 else scan.holes
    overlaps := if entry.start < scan.prevStop + 1 then scan.overlaps + 1 else scan.overlaps
    prevStop := entry.stop }

/-- One turn of the loop of `dht_layout_anomalies`. -/
def anomalyTurn (scan : AnomalyScan) (entry : LayoutEntry) : AnomalyScan :=
  if entry.err = -1 ∨ entry.err = enoent then { scan with missing := scan.missing + 1 }
  else if entry.err = enotconn then { scan with down := scan.down + 1 }
  else if entry.err = enospc then { scan with noSpace := scan.noSpace + 1 }
  else if entry.err = 0 then
    -- Without a range the subvolume does not take part in the spread.
    if entry.start = entry.stop then scan else rangeTurn scan entry
  else { scan with misc := scan.misc + 1 }

/-- `layout->list[0]` -/
def Layout.head (layout : Layout) : LayoutEntry := layout.list.get ⟨0, layout.cnt_pos⟩

/-- `last_stop` -/
def Layout.lastStop (layout : Layout) : UInt32 := layout.head.start - 1

/-- `dht_layout_anomalies` -/
def dhtLayoutAnomalies (layout : Layout) : Anomalies :=
  let scan := layout.list.foldl anomalyTurn ⟨⟨0, 0, 0, 0, 0, 0⟩, layout.lastStop, true⟩
  { scan.toAnomalies with
    holes :=
      if layout.lastStop - scan.prevStop ≠ 0 ∨ scan.isVirgin then scan.holes + 1 else scan.holes }

/-! ## The ranges that are walked -/

namespace LayoutEntry

/-- The walk looks at the range of the entry. -/
def Participates (entry : LayoutEntry) : Prop := entry.err = 0 ∧ entry.start ≠ entry.stop
  deriving Decidable

/-- The range is all the hashes. -/
def IsWhole (entry : LayoutEntry) : Prop := entry.start = 0 ∧ entry.stop = 0xffffffff

end LayoutEntry

def participants (list : List LayoutEntry) : List LayoutEntry :=
  list.filter fun entry => entry.Participates

/-- Each range begins where the one before it ends, and the last one ends at `last`. -/
def Adjacent (last : UInt32) : UInt32 → List LayoutEntry → Prop
  | prev, [] => last = prev
  | prev, entry :: rest => prev + 1 = entry.start ∧ Adjacent last entry.stop rest

variable {list : List LayoutEntry} {scan : AnomalyScan} {entry : LayoutEntry}
variable {base prev : UInt32}

/-- The loop stands at `last` without having seen anything wrong. -/
def AnomalyScan.Clean (scan : AnomalyScan) (last : UInt32) : Prop :=
  scan.holes = 0 ∧ scan.overlaps = 0 ∧ last = scan.prevStop

theorem participants_cons_of_pos (hentry : entry.Participates) :
    participants (entry :: list) = entry :: participants list :=
  List.filter_cons_of_pos (by simpa using hentry)

theorem participants_cons_of_neg (hentry : ¬entry.Participates) :
    participants (entry :: list) = participants list :=
  List.filter_cons_of_neg (by simpa using hentry)

theorem anomalyTurn_of_participates (hentry : entry.Participates) :
    anomalyTurn scan entry = rangeTurn scan entry := by
  obtain ⟨herr, hrange⟩ := hentry
  simp [anomalyTurn, herr, hrange, enoent, enotconn, enospc]

theorem rangeTurn_counts (scan : AnomalyScan) (entry : LayoutEntry) :
    ((rangeTurn scan entry).holes = 0 ∧ (rangeTurn scan entry).overlaps = 0) ↔
      (scan.holes = 0 ∧ scan.overlaps = 0) ∧ scan.prevStop + 1 = entry.start := by
  rw [← UInt32.toNat_inj]
  simp only [rangeTurn, UInt32.lt_iff_toNat_lt]
  generalize (scan.prevStop + 1).toNat = next
  rcases Nat.lt_trichotomy next entry.start.toNat with hhole | hnext | hoverlap
  · simp [hhole, Nat.ne_of_lt hhole]
  · simp [hnext]
  · simp [hoverlap, Nat.ne_of_gt hoverlap]

theorem anomalyTurn_of_not_participates (scan : AnomalyScan) (hentry : ¬entry.Participates) :
    (anomalyTurn scan entry).holes = scan.holes ∧
      (anomalyTurn scan entry).overlaps = scan.overlaps ∧
      (anomalyTurn scan entry).prevStop = scan.prevStop ∧
      (anomalyTurn scan entry).isVirgin = scan.isVirgin := by
  rw [anomalyTurn]
  split_ifs with _ _ _ herr hrange
  case pos => exact ⟨rfl, rfl, rfl, rfl⟩
  case pos => exact ⟨rfl, rfl, rfl, rfl⟩
  case pos => exact ⟨rfl, rfl, rfl, rfl⟩
  case pos => exact ⟨rfl, rfl, rfl, rfl⟩
  · exact absurd ⟨herr, hrange⟩ hentry
  · exact ⟨rfl, rfl, rfl, rfl⟩

theorem foldl_anomalyTurn_clean (list : List LayoutEntry) (scan : AnomalyScan) (last : UInt32) :
    (list.foldl anomalyTurn scan).Clean last ↔
      (scan.holes = 0 ∧ scan.overlaps = 0) ∧ Adjacent last scan.prevStop (participants list) := by
  induction list generalizing scan with
  | nil => simp [AnomalyScan.Clean, participants, Adjacent, and_assoc]
  | cons entry rest ih =>
    rw [List.foldl_cons, ih]
    by_cases hentry : entry.Participates
    · rw [anomalyTurn_of_participates hentry, rangeTurn_counts, participants_cons_of_pos hentry,
        and_assoc]
      rfl
    · obtain ⟨hholes, hoverlaps, hprev, -⟩ := anomalyTurn_of_not_participates scan hentry
      rw [hholes, hoverlaps, hprev, participants_cons_of_neg hentry]

theorem foldl_anomalyTurn_isVirgin (list : List LayoutEntry) (scan : AnomalyScan) :
    (list.foldl anomalyTurn scan).isVirgin = true ↔
      scan.isVirgin = true ∧ participants list = [] := by
  induction list generalizing scan with
  | nil => simp [participants]
  | cons entry rest ih =>
    rw [List.foldl_cons, ih]
    by_cases hentry : entry.Participates
    · rw [anomalyTurn_of_participates hentry, participants_cons_of_pos hentry]
      simp [rangeTurn]
    · rw [(anomalyTurn_of_not_participates scan hentry).2.2.2, participants_cons_of_neg hentry]

/-- What it means that no hole and no overlap is reported. -/
theorem dhtLayoutAnomalies_clean (layout : Layout) :
    ((dhtLayoutAnomalies layout).holes = 0 ∧ (dhtLayoutAnomalies layout).overlaps = 0) ↔
      participants layout.list ≠ [] ∧
        Adjacent layout.lastStop layout.lastStop (participants layout.list) := by
  have hclean := foldl_anomalyTurn_clean layout.list
    ⟨⟨0, 0, 0, 0, 0, 0⟩, layout.lastStop, true⟩ layout.lastStop
  have hvirgin := foldl_anomalyTurn_isVirgin layout.list ⟨⟨0, 0, 0, 0, 0, 0⟩, layout.lastStop, true⟩
  simp only [true_and, and_self] at hclean hvirgin
  rw [← hclean, AnomalyScan.Clean, Ne, ← hvirgin, dhtLayoutAnomalies]
  dsimp only
  generalize layout.list.foldl anomalyTurn _ = scan
  have hsub : layout.lastStop - scan.prevStop ≠ 0 ↔ ¬layout.lastStop = scan.prevStop :=
    not_congr sub_eq_zero
  split_ifs with hwrong
  · rw [hsub] at hwrong
    rcases hwrong with h | h <;> simp [h]
  · rw [hsub] at hwrong
    tauto

/-! ## Every hash once -/

def LayoutEntry.first (entry : LayoutEntry) : Nat := entry.start.toNat

def LayoutEntry.last (entry : LayoutEntry) : Nat := entry.stop.toNat

open LayoutEntry (first last)

/-- The ranges are listed by their starts, and none ends before it starts. -/
structure Ascending (list : List LayoutEntry) : Prop where
  sorted : list.Pairwise fun left right => left.start ≤ right.start
  range : ∀ entry ∈ list, entry.start ≤ entry.stop

theorem Ascending.tail (hlist : Ascending (entry :: list)) : Ascending list :=
  ⟨(List.pairwise_cons.mp hlist.sorted).2, fun e he => hlist.range e (List.mem_cons_of_mem _ he)⟩

theorem toNat_add_one (hnot : prev ≠ 0xffffffff) : (prev + 1).toNat = prev.toNat + 1 := by
  have hlt := prev.toNat_lt
  have hne : prev.toNat ≠ 0xffffffff := fun h => hnot (UInt32.toNat_inj.mp h)
  rw [UInt32.toNat_add, UInt32.toNat_one, Nat.mod_eq_of_lt (by omega)]

/-- Ranges that are adjacent round to the first of them leave no hash below it. -/
theorem Adjacent.base_eq_zero (hlist : Ascending list) (hbase : ∀ entry ∈ list, base ≤ entry.start)
    (hsome : list ≠ []) (hadjacent : Adjacent (base - 1) prev list) : base = 0 := by
  induction list generalizing prev with
  | nil => exact absurd rfl hsome
  | cons entry rest ih =>
    cases rest with
    | cons next rest =>
      exact ih hlist.tail (fun e he => hbase e (List.mem_cons_of_mem _ he)) (by simp) hadjacent.2
    | nil =>
      -- The last range ends right before `base` and does not start there.
      have hstop : base - 1 = entry.stop := hadjacent.2
      have hfrom := hbase entry List.mem_cons_self
      have hrange := hlist.range entry List.mem_cons_self
      by_contra hne
      rw [UInt32.le_iff_toNat_le] at hfrom hrange
      have hpos : 0 < base.toNat := Nat.pos_of_ne_zero fun h => hne (UInt32.toNat_inj.mp h)
      have hone : (1 : UInt32) ≤ base := UInt32.le_iff_toNat_le.mpr hpos
      rw [← hstop, UInt32.toNat_sub_of_le _ _ hone, UInt32.toNat_one] at hrange
      omega

/-- Behind a range that does not end at the top, adjacent ranges do not wrap around. -/
theorem Adjacent.chained (hlist : Ascending list) (hprev : prev ≠ 0xffffffff)
    (hadjacent : Adjacent 0xffffffff prev list) :
    Chained first last (2 ^ 32) (prev.toNat + 1) list := by
  induction list generalizing prev with
  | nil => exact absurd hadjacent.symm hprev
  | cons entry rest ih =>
    obtain ⟨hstart, hrest⟩ := hadjacent
    rw [← toNat_add_one hprev, hstart]
    refine ⟨rfl, ?_⟩
    by_cases htop : entry.stop = 0xffffffff
    · cases rest with
      | nil => rw [last, htop]; rfl
      | cons next rest =>
        -- The next range would start at zero, and so would this one.
        have hle : entry.start ≤ next.start :=
          (List.pairwise_cons.mp hlist.sorted).1 next List.mem_cons_self
        rw [← hrest.1, htop, UInt32.le_iff_toNat_le, ← hstart, toNat_add_one hprev] at hle
        exact absurd hle (Nat.not_succ_le_zero _)
    · exact ih hlist.tail htop hrest

theorem adjacent_of_chained (hchain : Chained first last (2 ^ 32) (prev.toNat + 1) list) :
    Adjacent 0xffffffff prev list := by
  induction list generalizing prev with
  | nil =>
    have hlast : prev.toNat + 1 = 2 ^ 32 := hchain
    refine UInt32.toNat_inj.mp ?_
    rw [show (0xffffffff : UInt32).toNat = 2 ^ 32 - 1 from rfl]
    omega
  | cons entry rest ih =>
    obtain ⟨hstart, hrest⟩ := hchain
    refine ⟨?_, ih hrest⟩
    have hlt := entry.start.toNat_lt
    rw [first] at hstart
    rw [← UInt32.toNat_inj, UInt32.toNat_add, UInt32.toNat_one, Nat.mod_eq_of_lt (by omega), hstart]

theorem coverage_eq_countP (list : List LayoutEntry) (hash : UInt32) :
    coverage first last list hash.toNat = list.countP fun entry => entry.Contains hash := by
  refine List.countP_congr fun entry _ => ?_
  rw [decide_eq_true_iff, decide_eq_true_iff, LayoutEntry.Contains, UInt32.le_iff_toNat_le,
    UInt32.le_iff_toNat_le]
  exact Iff.rfl

/-- Every hash is in one of the ranges. -/
def EveryHashOnce (list : List LayoutEntry) : Prop :=
  ∀ hash, (list.countP fun entry => entry.Contains hash) = 1

theorem chained_iff_every_hash_once (hlist : Ascending list) :
    Chained first last (2 ^ 32) 0 list ↔ EveryHashOnce list := by
  have hsorted : list.Pairwise fun left right => first left ≤ first right :=
    hlist.sorted.imp fun h => UInt32.le_iff_toNat_le.mp h
  have hranges : ∀ entry ∈ list, first entry ≤ last entry ∧ last entry < 2 ^ 32 :=
    fun entry hentry =>
      ⟨UInt32.le_iff_toNat_le.mp (hlist.range entry hentry), entry.stop.toNat_lt⟩
  rw [chained_iff_coverage hsorted hranges (fun _ _ => Nat.zero_le _) (Nat.zero_le _)]
  constructor
  · intro hcover hash
    rw [← coverage_eq_countP]
    exact hcover _ (Nat.zero_le _) hash.toNat_lt
  · intro hcover value _ hlt
    have hvalue : (UInt32.ofNat value).toNat = value := UInt32.toNat_ofNat_of_lt' hlt
    rw [← hvalue, coverage_eq_countP]
    exact hcover _

/-- A range of all the hashes comes before ranges that have every hash once, or several do. -/
def RepeatsHashes : List LayoutEntry → Prop
  | [] => False
  | entry :: rest => entry.IsWhole ∧ (EveryHashOnce rest ∨ RepeatsHashes rest)

theorem RepeatsHashes.not_once (hlist : RepeatsHashes list) : ¬EveryHashOnce list := by
  have htwice : 2 ≤ list.countP fun entry => entry.Contains 0 := by
    induction list with
    | nil => exact absurd hlist id
    | cons entry rest ih =>
      obtain ⟨⟨hstart, hstop⟩, hrest⟩ := hlist
      have hcontains : entry.Contains 0 := by simp [LayoutEntry.Contains, hstart]
      rw [List.countP_cons, if_pos (by simpa using hcontains)]
      rcases hrest with honce | hrepeats
      · rw [honce 0]
      · exact Nat.le_succ_of_le (ih hrepeats)
  exact fun honce => absurd (honce 0) (by omega)

/-- The walk does not see a range of all the hashes that others follow. -/
theorem adjacent_zero_iff (hlist : Ascending list) :
    (list ≠ [] ∧ Adjacent 0xffffffff 0xffffffff list) ↔ EveryHashOnce list ∨
      RepeatsHashes list := by
  induction list with
  | nil => simp [EveryHashOnce, RepeatsHashes]
  | cons entry rest ih =>
    have hzero : (0xffffffff : UInt32) + 1 = entry.start ↔ first entry = 0 :=
      eq_comm.trans UInt32.toNat_inj.symm
    rw [← chained_iff_every_hash_once hlist, RepeatsHashes, ← ih hlist.tail,
      and_iff_right (List.cons_ne_nil _ _), Adjacent, hzero, Chained]
    by_cases htop : entry.stop = 0xffffffff
    · have hwhole : entry.IsWhole ↔ first entry = 0 :=
        (and_iff_left htop).trans UInt32.toNat_inj.symm
      have hlast : last entry + 1 = 2 ^ 32 := by rw [last, htop]; rfl
      rw [hwhole, htop, hlast, ← and_or_left]
      refine and_congr_right fun _ => ?_
      cases rest with
      | nil => simp [Adjacent, Chained]
      | cons next rest =>
        have hlt := next.start.toNat_lt
        simp [Chained, first, Nat.ne_of_lt hlt]
    · rw [or_iff_left fun h => htop h.1.2]
      exact and_congr_right fun _ =>
        ⟨fun h => h.chained hlist.tail htop, adjacent_of_chained⟩

/-- Neither a hole nor an overlap is reported exactly where the first entry of the layout begins
at zero and the ranges have every hash once, or repeat them unseen. -/
theorem dhtLayoutAnomalies_clean_iff (layout : Layout)
    (hlist : Ascending (participants layout.list)) :
    ((dhtLayoutAnomalies layout).holes = 0 ∧ (dhtLayoutAnomalies layout).overlaps = 0) ↔
      layout.head.start = 0 ∧ (EveryHashOnce (participants layout.list) ∨
        RepeatsHashes (participants layout.list)) := by
  rw [dhtLayoutAnomalies_clean, ← adjacent_zero_iff hlist, Layout.lastStop]
  constructor
  · rintro ⟨hsome, hadjacent⟩
    have hbase : ∀ entry ∈ participants layout.list, layout.head.start ≤ entry.start := by
      cases hranges : participants layout.list with
      | nil => simp
      | cons entry rest =>
        rw [hranges] at hadjacent hlist
        have hstart : layout.head.start = entry.start := by
          rw [← hadjacent.1, UInt32.sub_add_cancel]
        rw [hstart, List.forall_mem_cons]
        exact ⟨UInt32.le_refl _, (List.pairwise_cons.mp hlist.sorted).1⟩
    have hzero := hadjacent.base_eq_zero hlist hbase hsome
    rw [hzero] at hadjacent
    exact ⟨hzero, hsome, hadjacent⟩
  · rintro ⟨hzero, hsome, hadjacent⟩
    rw [hzero]
    exact ⟨hsome, hadjacent⟩

/-- The report is right exactly where ranges of all the hashes do not come before others that
have them again, and where the first entry begins at zero if the ranges have every hash once. -/
theorem dht_layout_anomalies_sound (layout : Layout)
    (hlist : Ascending (participants layout.list)) :
    (((dhtLayoutAnomalies layout).holes = 0 ∧ (dhtLayoutAnomalies layout).overlaps = 0) ↔
        EveryHashOnce (participants layout.list)) ↔
      (layout.head.start = 0 → ¬RepeatsHashes (participants layout.list)) ∧
        (EveryHashOnce (participants layout.list) → layout.head.start = 0) := by
  have hexclusive : RepeatsHashes (participants layout.list) →
      ¬EveryHashOnce (participants layout.list) := RepeatsHashes.not_once
  rw [dhtLayoutAnomalies_clean_iff layout hlist]
  tauto

/-- Two halves behind an entry that is not walked. -/
def halvesLayout : Layout :=
  ⟨0, [⟨-1, 0, 0, 2⟩, ⟨0, 0, 0x7fffffff, 0⟩, ⟨0, 0x80000000, 0xffffffff, 1⟩],
    by decide, by decide⟩

theorem dht_layout_anomalies_sound_halves :
    ((dhtLayoutAnomalies halvesLayout).holes = 0 ∧
        (dhtLayoutAnomalies halvesLayout).overlaps = 0) ↔
      EveryHashOnce (participants halvesLayout.list) := by
  refine (dht_layout_anomalies_sound halvesLayout ⟨by decide, by decide⟩).mpr
    ⟨fun _ hrepeats => ?_, fun _ => rfl⟩
  exact absurd hrepeats.1.2 (by decide)

/-- Two subvolumes that both have all the hashes. -/
def twiceLayout : Layout :=
  ⟨0, [⟨0, 0, 0xffffffff, 0⟩, ⟨0, 0, 0xffffffff, 1⟩], by decide, by decide⟩

/-- The overlap of two ranges of all the hashes is not reported. -/
theorem second_whole_range_unseen : ¬∀ layout : Layout, Ascending (participants layout.list) →
    (((dhtLayoutAnomalies layout).holes = 0 ∧ (dhtLayoutAnomalies layout).overlaps = 0) ↔
      EveryHashOnce (participants layout.list)) := by
  intro hall
  have honce := (hall twiceLayout ⟨by decide, by decide⟩).mp ⟨by decide, by decide⟩ 0
  exact absurd honce (by decide)

end GlusterFS.Dht
