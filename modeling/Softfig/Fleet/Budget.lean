import Mathlib.Algebra.Group.Int.Defs
import Mathlib.Data.List.MinMax
import Mathlib.Data.Prod.Lex
import Mathlib.Order.WithBot

/-!
The budget of the profile slots: what is left of a reading's two windows, the holds a scan of the
readings places, and the pick of a slot.

A window has a percentage, a coarse status and a boundary, each of them possibly unknown. It
closes its slot while it is at or below the stall floor and its boundary has not passed. A reading
folds the two windows into one headroom with one boundary, and a hold stands until that boundary.

- `headroomFrom_le_stall_iff`: a fresh reading denies a slot exactly while a window closes it;
- `placed_iff`: when a scan places a hold, and until when;
- `pickWithBudget_exact`: which slot a pick takes;
- `budget_exact_iff`: a hold ends when both windows have reopened but for one kind of reading.
-/

namespace Softfig.Fleet

/-! ### Readings -/

/-- `RateWindow`: one window as one reading saw it. -/
structure RateWindow where
  usedPercentage : Option Nat
  resetsAt : Option Int
  status : Option String
  deriving DecidableEq

/-- The part of a `UsageSnapshot` that the budget reads, its `ts` in whole seconds. -/
structure UsageSnapshot where
  fiveHour : RateWindow
  sevenDay : RateWindow
  ts : Int
  deriving DecidableEq

structure Headroom where
  pct : Nat
  resetsAt : Option Int
  deriving DecidableEq

def Headroom.full : Headroom := ⟨100, none⟩

def staleFloorSecs : Int := 6 * 3600

def headroomStallPct : Nat := 2

def headroomWarnPct : Nat := 10

def RateWindow.windowResetBy (w : RateWindow) (now : Int) : Bool :=
  w.resetsAt.any fun at' => at' ≤ now

def RateWindow.vouchablePctAt (w : RateWindow) (now : Int) : Option Nat :=
  w.usedPercentage.filter fun _ => !w.windowResetBy now

/-- The tier of a coarse status. -/
def statusPct (status : String) : Nat :=
  if status = "allowed" then 100 else if status = "rejected" then 0 else 5

def windowHeadroom (w : RateWindow) (now : Int) : Headroom :=
  if w.windowResetBy now then .full
  else
    let pctFromPct := (w.vouchablePctAt now).map fun used => 100 - min used 100
    let pctFromStatus := w.status.map statusPct
    let pct := match pctFromPct, pctFromStatus with
      | some a, some b => min a b
      | some p, none | none, some p => p
      | none, none => 100
    ⟨pct, w.resetsAt⟩

/-- The window with the lower percentage; on a tie the later boundary, or the one known. -/
def bindingHeadroom (five seven : Headroom) : Headroom :=
  if five.pct < seven.pct then five
  else if seven.pct < five.pct then seven
  else
    ⟨five.pct, match five.resetsAt, seven.resetsAt with
      | some a, some b => some (max a b)
      | a, b => a.or b⟩

/-- `i64::saturating_sub`. -/
def saturatingSub (a b : Int) : Int := max (-2 ^ 63) (min (2 ^ 63 - 1) (a - b))

def headroomFrom (snapshot : Option UsageSnapshot) (now : Int) : Headroom :=
  match snapshot with
  | none => .full
  | some snap =>
    if staleFloorSecs < saturatingSub now snap.ts then .full
    else bindingHeadroom (windowHeadroom snap.fiveHour now) (windowHeadroom snap.sevenDay now)

/-! ### Holds -/

/-- What one attempt to load a slot's file gives. -/
inductive Load where
  | absent
  | unreadable
  | loaded (snapshot : UsageSnapshot)
  deriving DecidableEq

/-- The attempts to load a slot's file, of which the second is a retry. -/
def slotHeadroom (first second : Load) (now : Int) : Headroom :=
  match first with
  | .loaded snap => headroomFrom (some snap) now
  | .absent => .full
  | .unreadable =>
    match second with
    | .loaded snap => headroomFrom (some snap) now
    | .absent => .full
    | .unreadable => ⟨5, none⟩

/-- `RateLimitHolds`: the instant until which a slot is held. -/
abbrev RateLimitHolds := String → Option Int

def RateLimitHolds.isHeld (holds : RateLimitHolds) (slot : String) : Bool := (holds slot).isSome

/-- A later boundary wins. -/
def RateLimitHolds.extend (holds : RateLimitHolds) (slot : String) (until' : Int) :
    RateLimitHolds :=
  if (holds slot).any fun existing => until' ≤ existing then holds
  else Function.update holds slot (some until')

def RateLimitHolds.clearElapsed (holds : RateLimitHolds) (now : Int) : RateLimitHolds :=
  fun slot => (holds slot).filter fun until' => now < until'

/-- A file of the directory, with what loading its slot's file gives. -/
structure DirEntry where
  name : String
  first : Load
  second : Load

/-- The stem of a name whose extension is `json`. -/
def jsonSlot (name : String) : Option String :=
  let stem := name.toList.take (name.toList.length - 5)
  if stem ≠ [] ∧ name.toList = stem ++ ".json".toList then some (String.ofList stem) else none

def rescanEntry (now : Int) (holds : RateLimitHolds) (entry : DirEntry) : RateLimitHolds :=
  match jsonSlot entry.name with
  | none => holds
  | some slot =>
    let hr := slotHeadroom entry.first entry.second now
    if headroomStallPct < hr.pct then holds
    else
      match hr.resetsAt with
      | some resetsAt => if now < resetsAt then holds.extend slot resetsAt else holds
      | none => holds

/-- `rescan_from_disk`, of a directory that lists these files. -/
def RateLimitHolds.rescanFromDisk (holds : RateLimitHolds) (entries : List DirEntry) (now : Int) :
    RateLimitHolds :=
  entries.foldl (rescanEntry now) holds

/-! ### The picker -/

/-- The part of a `ProfilePin` that recency reads. -/
structure ProfilePin where
  profile : String
  pickedAt : Int

/-- When a slot was last picked: a time, then a line. A slot that nobody picked is least. -/
abbrev Recency := WithBot (Int ×ₗ Nat)

instance Recency.instLinearOrder : LinearOrder Recency :=
  @WithBot.linearOrder _ (@Prod.Lex.instLinearOrder Int Nat Int.instLinearOrder Nat.instLinearOrder)

instance Recency.instPreorder : Preorder Recency := Recency.instLinearOrder.toPreorder

instance Recency.instDecidableLT : DecidableLT Recency := Recency.instLinearOrder.toDecidableLT

/-- One member's history from a line on. -/
def recordPins (floor : Int) (line : Nat) :
    List ProfilePin → (String → Recency) → String → Recency
  | [], last => last
  | pin :: rest, last =>
    let floor := max floor pin.pickedAt
    let key : Recency := ((toLex (floor, line) : Int ×ₗ Nat) : Recency)
    recordPins floor (line + 1) rest
      (Function.update last pin.profile (max (last pin.profile) key))

def lastUsed (histories : List (List ProfilePin)) : String → Recency :=
  histories.foldl (fun last history => recordPins (-2 ^ 63) 0 history last) fun _ => ⊥

/-- The first of the least recently used slots. -/
def pickRoundRobin (pool : List String) (last : String → Recency) : Option String :=
  pool.argmin last

inductive PickResult where
  | chose (slot : String) (headroomPct : Nat)
  | warn (slot : String) (headroomPct : Nat)
  | stall (untilAt : Option Int)
  deriving DecidableEq

/-- The slot of a pick and its headroom. -/
def PickResult.slot? : PickResult → Option (String × Nat)
  | .chose slot pct | .warn slot pct => some (slot, pct)
  | .stall _ => none

/-- The slots above the floor, in pool order. -/
def openSlots (pool : List String) (headroom : List Headroom) : List (String × Headroom) :=
  (pool.zip headroom).filter fun e => headroomStallPct < e.2.pct

/-- The open slots that no live session is on, or all of them. -/
def candidates (pool : List String) (live : List String) (headroom : List Headroom) :
    List (String × Headroom) :=
  let free := (openSlots pool headroom).filter fun e => e.1 ∉ live
  if free.isEmpty then openSlots pool headroom else free

def pickWithBudget (pool : List String) (last : String → Recency) (live : List String)
    (headroom : List Headroom) : Option PickResult :=
  if pool.isEmpty then none
  else if headroom.all fun h => h.pct ≤ headroomStallPct then
    some (.stall (headroom.filterMap (·.resetsAt)).min?)
  else
    let candidates := candidates pool live headroom
    let maxPct := (candidates.map (·.2.pct)).max?.getD 100
    let tier := (candidates.filter fun e => e.2.pct = maxPct).map (·.1)
    -- `tier[0]`, which a tier of none would not have.
    let chosen := (pickRoundRobin tier last).getD (tier.headD "")
    if maxPct < headroomWarnPct then some (.warn chosen maxPct) else some (.chose chosen maxPct)

/-! ### Windows over time -/

/-- What a window has left by its percentage and its status. -/
def RateWindow.remaining (w : RateWindow) : Nat :=
  match w.usedPercentage.map fun used => 100 - min used 100, w.status.map statusPct with
  | some a, some b => min a b
  | some p, none | none, some p => p
  | none, none => 100

/-- The window denies its slot. -/
def RateWindow.Closed (w : RateWindow) (now : Int) : Prop :=
  w.remaining ≤ headroomStallPct ∧ ∀ a, w.resetsAt = some a → now < a

/-- The reading is not older than the staleness floor. -/
def UsageSnapshot.Fresh (snap : UsageSnapshot) (t : Int) : Prop := t - snap.ts ≤ staleFloorSecs

theorem windowResetBy_eq_false {w : RateWindow} {now : Int} :
    w.windowResetBy now = false ↔ ∀ a, w.resetsAt = some a → now < a := by
  unfold RateWindow.windowResetBy
  cases h : w.resetsAt with
  | none => simp
  | some a => simp

theorem windowHeadroom_eq (w : RateWindow) (now : Int) :
    windowHeadroom w now =
      if w.windowResetBy now then .full else ⟨w.remaining, w.resetsAt⟩ := by
  unfold windowHeadroom RateWindow.vouchablePctAt RateWindow.remaining
  cases hreset : w.windowResetBy now with
  | true => rfl
  | false => cases w.usedPercentage <;> cases w.status <;> rfl

theorem windowHeadroom_of_closed {w : RateWindow} {now : Int} (h : w.Closed now) :
    windowHeadroom w now = ⟨w.remaining, w.resetsAt⟩ := by
  rw [windowHeadroom_eq, windowResetBy_eq_false.mpr h.2]
  rfl

/-- A window's headroom is at or below the floor exactly while it is closed. -/
theorem windowHeadroom_le_iff {w : RateWindow} {now : Int} :
    (windowHeadroom w now).pct ≤ headroomStallPct ↔ w.Closed now := by
  rw [windowHeadroom_eq, RateWindow.Closed, ← windowResetBy_eq_false]
  cases h : w.windowResetBy now with
  | true => simp [Headroom.full, headroomStallPct]
  | false => simp

theorem bindingHeadroom_pct (five seven : Headroom) :
    (bindingHeadroom five seven).pct = min five.pct seven.pct := by
  unfold bindingHeadroom
  split
  · omega
  · split
    · omega
    · dsimp only
      omega

theorem headroomFrom_of_fresh {snap : UsageSnapshot} {t : Int} (h : snap.Fresh t) :
    headroomFrom (some snap) t =
      bindingHeadroom (windowHeadroom snap.fiveHour t) (windowHeadroom snap.sevenDay t) := by
  have hfresh : t - snap.ts ≤ staleFloorSecs := h
  have hage : ¬staleFloorSecs < saturatingSub t snap.ts := by
    unfold saturatingSub staleFloorSecs at *
    omega
  rw [headroomFrom, if_neg hage]

/-- A fresh reading denies its slot exactly while a window is closed. -/
theorem headroomFrom_le_stall_iff {snap : UsageSnapshot} {t : Int} (h : snap.Fresh t) :
    (headroomFrom (some snap) t).pct ≤ headroomStallPct ↔
      snap.fiveHour.Closed t ∨ snap.sevenDay.Closed t := by
  rw [headroomFrom_of_fresh h, bindingHeadroom_pct, min_le_iff, windowHeadroom_le_iff,
    windowHeadroom_le_iff]

theorem RateWindow.Closed.mono {w : RateWindow} {now t : Int} (h : w.Closed t) (hle : now ≤ t) :
    w.Closed now :=
  ⟨h.1, fun a ha => by have := h.2 a ha; omega⟩

/-- A closed window stays closed until its boundary. -/
theorem RateWindow.Closed.until {w : RateWindow} {now t a : Int} (h : w.Closed now)
    (ha : w.resetsAt = some a) (hlt : t < a) : w.Closed t :=
  ⟨h.1, fun b hb => by rw [ha] at hb; cases hb; exact hlt⟩

theorem RateWindow.not_closed {w : RateWindow} {a t : Int} (ha : w.resetsAt = some a)
    (hle : a ≤ t) : ¬w.Closed t := by
  intro h
  have := h.2 a ha
  omega

theorem UsageSnapshot.Fresh.mono {snap : UsageSnapshot} {t t' : Int} (h : snap.Fresh t')
    (hle : t ≤ t') : snap.Fresh t := by
  unfold UsageSnapshot.Fresh at *
  omega

/-! ### The end of a hold -/

/-- The reading asks for a hold until then. -/
def UsageSnapshot.HoldsUntil (snap : UsageSnapshot) (now until' : Int) : Prop :=
  (headroomFrom (some snap) now).pct ≤ headroomStallPct ∧
    (headroomFrom (some snap) now).resetsAt = some until' ∧ now < until'

/-- The first window is closed until `a` and the second one longer. -/
def RateWindow.Outlived (w other : RateWindow) (now a : Int) : Prop :=
  w.Closed now ∧ w.resetsAt = some a ∧ other.remaining ≤ headroomStallPct ∧
    ∀ b, other.resetsAt = some b → a < b

/-- The window that the fold takes ends the hold at `a`, and the other one is still closed: both
are exhausted, and the one with less left reopens first, or they have the same left and only the
boundary of the other is unknown. -/
def UsageSnapshot.EndsEarly (snap : UsageSnapshot) (now a : Int) : Prop :=
  (snap.fiveHour.remaining < snap.sevenDay.remaining ∧
      snap.fiveHour.Outlived snap.sevenDay now a) ∨
    (snap.sevenDay.remaining < snap.fiveHour.remaining ∧
      snap.sevenDay.Outlived snap.fiveHour now a) ∨
    (snap.fiveHour.remaining = snap.sevenDay.remaining ∧
      ((snap.sevenDay.resetsAt = none ∧ snap.fiveHour.Outlived snap.sevenDay now a) ∨
        (snap.fiveHour.resetsAt = none ∧ snap.sevenDay.Outlived snap.fiveHour now a)))

/-- Both windows are closed where one outlives the other. -/
theorem RateWindow.Outlived.closed {w other : RateWindow} {now a : Int}
    (h : w.Outlived other now a) : other.Closed now ∧ other.Closed a ∧ now < a := by
  obtain ⟨hclosed, ha, hlow, hlater⟩ := h
  have hlt := hclosed.2 a ha
  exact ⟨⟨hlow, fun b hb => by have := hlater b hb; omega⟩, ⟨hlow, hlater⟩, hlt⟩

/-- A hold that ends early is placed. -/
theorem UsageSnapshot.EndsEarly.holds {snap : UsageSnapshot} {now a : Int}
    (h : snap.EndsEarly now a) (hfresh : snap.Fresh a) :
    snap.HoldsUntil now a ∧ (snap.fiveHour.Closed a ∨ snap.sevenDay.Closed a) := by
  rcases h with ⟨hlt, hout⟩ | ⟨hlt, hout⟩ | ⟨heq, ⟨hnone, hout⟩ | ⟨hnone, hout⟩⟩
  all_goals
    obtain ⟨hother, hstays, hpos⟩ := hout.closed
    obtain ⟨hclosed, ha, -⟩ := hout
    have hnow := hfresh.mono hpos.le
  · refine ⟨⟨(headroomFrom_le_stall_iff hnow).mpr (.inl hclosed), ?_, hpos⟩, .inr hstays⟩
    rw [headroomFrom_of_fresh hnow, windowHeadroom_of_closed hclosed,
      windowHeadroom_of_closed hother, bindingHeadroom, if_pos hlt, ha]
  · refine ⟨⟨(headroomFrom_le_stall_iff hnow).mpr (.inr hclosed), ?_, hpos⟩, .inl hstays⟩
    rw [headroomFrom_of_fresh hnow, windowHeadroom_of_closed hclosed,
      windowHeadroom_of_closed hother, bindingHeadroom, if_neg (by dsimp only; omega),
      if_pos hlt, ha]
  · refine ⟨⟨(headroomFrom_le_stall_iff hnow).mpr (.inl hclosed), ?_, hpos⟩, .inr hstays⟩
    rw [headroomFrom_of_fresh hnow, windowHeadroom_of_closed hclosed,
      windowHeadroom_of_closed hother, bindingHeadroom, if_neg (by dsimp only; omega),
      if_neg (by dsimp only; omega), ha, hnone]
    rfl
  · refine ⟨⟨(headroomFrom_le_stall_iff hnow).mpr (.inr hclosed), ?_, hpos⟩, .inl hstays⟩
    rw [headroomFrom_of_fresh hnow, windowHeadroom_of_closed hclosed,
      windowHeadroom_of_closed hother, bindingHeadroom, if_neg (by dsimp only; omega),
      if_neg (by dsimp only; omega), ha, hnone]
    rfl

/-- The windows from the hold's start to its end: one is closed throughout, and none at the end
unless the hold ends early. -/
theorem UsageSnapshot.HoldsUntil.windows {snap : UsageSnapshot} {now until' : Int}
    (h : snap.HoldsUntil now until') (hfresh : snap.Fresh now) :
    (∀ t, t < until' → snap.fiveHour.Closed t ∨ snap.sevenDay.Closed t) ∧
      (snap.fiveHour.Closed until' ∨ snap.sevenDay.Closed until' → snap.EndsEarly now until') := by
  obtain ⟨hlow, hat, hlater⟩ := h
  rw [headroomFrom_le_stall_iff hfresh] at hlow
  rw [headroomFrom_of_fresh hfresh] at hat
  by_cases hfive : snap.fiveHour.Closed now
  · by_cases hseven : snap.sevenDay.Closed now
    · rw [windowHeadroom_of_closed hfive, windowHeadroom_of_closed hseven, bindingHeadroom] at hat
      split at hat
      · rename_i hlt
        refine ⟨fun t ht => .inl (hfive.until hat ht), ?_⟩
        rintro (hclosed | hclosed)
        · exact absurd hclosed (RateWindow.not_closed hat le_rfl)
        · exact .inl ⟨hlt, hfive, hat, hclosed⟩
      · split at hat
        · rename_i hlt
          refine ⟨fun t ht => .inr (hseven.until hat ht), ?_⟩
          rintro (hclosed | hclosed)
          · exact .inr (.inl ⟨hlt, hseven, hat, hclosed⟩)
          · exact absurd hclosed (RateWindow.not_closed hat le_rfl)
        · rename_i hge hle
          have hequal : snap.fiveHour.remaining = snap.sevenDay.remaining := by
            dsimp only at hge hle
            omega
          cases ha : snap.fiveHour.resetsAt with
          | none =>
            cases hb : snap.sevenDay.resetsAt with
            | none =>
              rw [ha, hb] at hat
              cases hat
            | some b =>
              rw [ha, hb] at hat
              cases hat
              refine ⟨fun t ht => .inr (hseven.until hb ht), ?_⟩
              rintro (hclosed | hclosed)
              · exact .inr (.inr ⟨hequal, .inr ⟨ha, hseven, hb, hclosed⟩⟩)
              · exact absurd hclosed (RateWindow.not_closed hb le_rfl)
          | some a =>
            cases hb : snap.sevenDay.resetsAt with
            | none =>
              rw [ha, hb] at hat
              cases hat
              refine ⟨fun t ht => .inl (hfive.until ha ht), ?_⟩
              rintro (hclosed | hclosed)
              · exact absurd hclosed (RateWindow.not_closed ha le_rfl)
              · exact .inr (.inr ⟨hequal, .inl ⟨hb, hfive, ha, hclosed⟩⟩)
            | some b =>
              rw [ha, hb] at hat
              have hmax : max a b = until' := Option.some.inj hat
              refine ⟨fun t ht => ?_, ?_⟩
              · rcases lt_max_iff.mp (hmax ▸ ht) with hta | htb
                · exact .inl (hfive.until ha hta)
                · exact .inr (hseven.until hb htb)
              · rintro (hclosed | hclosed)
                · exact absurd hclosed (RateWindow.not_closed ha (hmax ▸ le_max_left a b))
                · exact absurd hclosed (RateWindow.not_closed hb (hmax ▸ le_max_right a b))
    · have hopen := mt windowHeadroom_le_iff.mp hseven
      have hpct := windowHeadroom_le_iff.mpr hfive
      rw [bindingHeadroom, if_pos (by omega), windowHeadroom_of_closed hfive] at hat
      refine ⟨fun t ht => .inl (hfive.until hat ht), ?_⟩
      rintro (hclosed | hclosed)
      · exact absurd hclosed (RateWindow.not_closed hat le_rfl)
      · exact absurd (hclosed.mono hlater.le) hseven
  · have hseven := hlow.resolve_left hfive
    have hopen := mt windowHeadroom_le_iff.mp hfive
    have hpct := windowHeadroom_le_iff.mpr hseven
    rw [bindingHeadroom, if_neg (by omega), if_pos (by omega),
      windowHeadroom_of_closed hseven] at hat
    refine ⟨fun t ht => .inr (hseven.until hat ht), ?_⟩
    rintro (hclosed | hclosed)
    · exact absurd (hclosed.mono hlater.le) hfive
    · exact absurd hclosed (RateWindow.not_closed hat le_rfl)

/-! ### Holds from a scan -/

/-- Loading the slot's file gives the reading, at once or on the retry. -/
def DirEntry.Reads (entry : DirEntry) (snap : UsageSnapshot) : Prop :=
  entry.first = .loaded snap ∨ (entry.first = .unreadable ∧ entry.second = .loaded snap)

theorem DirEntry.Reads.headroom {entry : DirEntry} {snap : UsageSnapshot} (h : entry.Reads snap)
    (now : Int) : slotHeadroom entry.first entry.second now = headroomFrom (some snap) now := by
  rcases h with h | ⟨h, h'⟩
  · rw [h, slotHeadroom]
  · rw [h, h', slotHeadroom]

theorem extend_other {holds : RateLimitHolds} {slot other : String} {until' : Int}
    (hne : other ≠ slot) : holds.extend slot until' other = holds other := by
  unfold RateLimitHolds.extend
  split
  · rfl
  · exact Function.update_of_ne hne _ _

theorem extend_self {holds : RateLimitHolds} {slot : String} {until' : Int} :
    holds.extend slot until' slot = holds slot ∨ holds.extend slot until' slot = some until' := by
  unfold RateLimitHolds.extend
  split
  · exact .inl rfl
  · exact .inr (Function.update_self _ _ _)

/-- An entry changes nothing, or extends the hold of its slot to the boundary of its headroom. -/
theorem rescanEntry_eq (now : Int) (holds : RateLimitHolds) (entry : DirEntry) :
    rescanEntry now holds entry = holds ∨
      ∃ slot resetsAt, jsonSlot entry.name = some slot ∧
        (slotHeadroom entry.first entry.second now).pct ≤ headroomStallPct ∧
        (slotHeadroom entry.first entry.second now).resetsAt = some resetsAt ∧ now < resetsAt ∧
        rescanEntry now holds entry = holds.extend slot resetsAt := by
  unfold rescanEntry
  split
  · exact .inl rfl
  · rename_i slot hslot
    dsimp only
    split
    · exact .inl rfl
    · rename_i hlow
      split
      · rename_i resetsAt hat
        split
        · rename_i hlater
          exact .inr ⟨slot, resetsAt, hslot, by omega, hat, hlater, rfl⟩
        · exact .inl rfl
      · exact .inl rfl

/-- A low headroom with a boundary ahead extends the hold. -/
theorem rescanEntry_extends {now : Int} {holds : RateLimitHolds} {entry : DirEntry} {slot : String}
    {snap : UsageSnapshot} {until' : Int} (hslot : jsonSlot entry.name = some slot)
    (hreads : entry.Reads snap) (hholds : (headroomFrom (some snap) now).pct ≤ headroomStallPct)
    (hat : (headroomFrom (some snap) now).resetsAt = some until') (hlater : now < until') :
    rescanEntry now holds entry = holds.extend slot until' := by
  unfold rescanEntry
  rw [hslot]
  dsimp only
  rw [hreads.headroom, if_neg (not_lt.mpr hholds), hat]
  exact if_pos hlater

/-- An entry leaves a slot's hold as it is, or places the one its reading asks for. -/
theorem rescanEntry_cases {now : Int} {holds : RateLimitHolds} {entry : DirEntry} {slot : String}
    {snap : UsageSnapshot} (hreads : jsonSlot entry.name = some slot → entry.Reads snap) :
    rescanEntry now holds entry slot = holds slot ∨
      ∃ until', rescanEntry now holds entry slot = some until' ∧ snap.HoldsUntil now until' := by
  rcases rescanEntry_eq now holds entry with h | ⟨named, resetsAt, hnamed, hlow, hat, hlater, h⟩
  · exact .inl (congrFun h slot)
  · rw [h]
    by_cases hslot : slot = named
    · subst hslot
      rw [(hreads hnamed).headroom] at hlow hat
      rcases @extend_self holds slot resetsAt with hkeep | hplace
      · exact .inl hkeep
      · exact .inr ⟨resetsAt, hplace, hlow, hat, hlater⟩
    · exact .inl (extend_other hslot)

/-- A hold that a scan places is the one that the slot's reading asks for. -/
theorem rescan_placed {now : Int} {holds : RateLimitHolds} {entries : List DirEntry}
    {slot : String} {snap : UsageSnapshot} {until' : Int}
    (hreads : ∀ e ∈ entries, jsonSlot e.name = some slot → e.Reads snap)
    (hplaced : holds.rescanFromDisk entries now slot = some until')
    (hnew : holds slot ≠ some until') :
    snap.HoldsUntil now until' := by
  induction entries generalizing holds with
  | nil => exact absurd hplaced hnew
  | cons entry entries ih =>
    have hrest : ∀ e ∈ entries, jsonSlot e.name = some slot → e.Reads snap :=
      fun e he => hreads e (List.mem_cons_of_mem _ he)
    have hscan : (rescanEntry now holds entry).rescanFromDisk entries now slot = some until' :=
      hplaced
    by_cases hthis : rescanEntry now holds entry slot = some until'
    · rcases @rescanEntry_cases now holds entry slot snap (hreads entry List.mem_cons_self) with
        hkeep | ⟨placed, hplace, hholds⟩
      · exact absurd (hkeep ▸ hthis) hnew
      · rw [hthis] at hplace
        cases hplace
        exact hholds
    · exact ih hrest hscan hthis

theorem clearElapsed_isHeld {holds : RateLimitHolds} {slot : String} {until' t : Int}
    (h : holds slot = some until') :
    (holds.clearElapsed t).isHeld slot = true ↔ t < until' := by
  unfold RateLimitHolds.isHeld RateLimitHolds.clearElapsed
  rw [h]
  by_cases hlt : t < until' <;> simp [Option.filter, hlt]

/-! ### The pick -/

/-- No live session is on the slot, or one is on every open slot. -/
def Eligible (pool live : List String) (headroom : List Headroom) (slot : String) : Prop :=
  slot ∉ live ∨ ∀ e ∈ openSlots pool headroom, e.1 ∈ live

theorem mem_candidates {pool live : List String} {headroom : List Headroom}
    {e : String × Headroom} :
    e ∈ candidates pool live headroom ↔
      e ∈ openSlots pool headroom ∧ Eligible pool live headroom e.1 := by
  unfold candidates Eligible
  dsimp only
  split
  · rename_i hempty
    rw [List.isEmpty_iff, List.filter_eq_nil_iff] at hempty
    have hall : ∀ e ∈ openSlots pool headroom, e.1 ∈ live :=
      fun e he => by simpa using hempty e he
    exact ⟨fun he => ⟨he, .inr hall⟩, fun he => he.1⟩
  · rename_i hfree
    rw [List.isEmpty_iff, List.filter_eq_nil_iff] at hfree
    rw [List.mem_filter, decide_eq_true_eq]
    refine and_congr_right fun _ => ⟨.inl, fun h => h.resolve_right fun hall => hfree ?_⟩
    intro e he
    simpa using hall e he

/-- An open slot leaves candidates. -/
theorem exists_candidate {pool live : List String} {headroom : List Headroom}
    (h : openSlots pool headroom ≠ []) : candidates pool live headroom ≠ [] := by
  unfold candidates
  dsimp only
  split
  · exact h
  · rename_i hfree
    rwa [List.isEmpty_iff] at hfree

/-- The pick goes to the least recently used of the eligible open slots with the most headroom. -/
theorem pickWithBudget_open {pool live : List String} {last : String → Recency}
    {headroom : List Headroom} (h : openSlots pool headroom ≠ []) :
    ∃ result slot pct, pickWithBudget pool last live headroom = some result ∧
      result.slot? = some (slot, pct) ∧
      (∃ e ∈ openSlots pool headroom, e.1 = slot ∧ e.2.pct = pct) ∧
      Eligible pool live headroom slot ∧
      ∀ e ∈ openSlots pool headroom, Eligible pool live headroom e.1 →
        e.2.pct ≤ pct ∧ (e.2.pct = pct → last slot ≤ last e.1) := by
  obtain ⟨e₀, he₀⟩ := List.exists_mem_of_ne_nil _ h
  have hzip : e₀ ∈ pool.zip headroom ∧ headroomStallPct < e₀.2.pct := by
    simpa [openSlots] using he₀
  have hpool : pool.isEmpty = false := by
    rw [List.isEmpty_eq_false_iff]
    rintro rfl
    simp at hzip
  have hgate : (headroom.all fun h => decide (h.pct ≤ headroomStallPct)) = false := by
    rw [List.all_eq_false]
    exact ⟨e₀.2, (List.of_mem_zip hzip.1).2, by simpa using hzip.2⟩
  obtain ⟨c, hc⟩ := List.exists_mem_of_ne_nil _ (@exists_candidate pool live headroom h)
  -- The highest tier.
  obtain ⟨top, htop⟩ : ∃ top, ((candidates pool live headroom).map (·.2.pct)).max? = some top := by
    rw [← Option.isSome_iff_exists, List.isSome_max?_iff]
    exact List.ne_nil_of_mem (List.mem_map_of_mem hc)
  obtain ⟨hmem, hmax⟩ := List.max?_eq_some_iff.mp htop
  obtain ⟨e, he, hetop⟩ := List.mem_map.mp hmem
  -- The least recent of the tier.
  obtain ⟨chosen, hchosen⟩ : ∃ chosen, pickRoundRobin (((candidates pool live headroom).filter
      fun e => e.2.pct = top).map (·.1)) last = some chosen := by
    rw [← Option.ne_none_iff_exists']
    unfold pickRoundRobin
    rw [Ne, List.argmin_eq_none]
    exact List.ne_nil_of_mem
      (List.mem_map_of_mem (List.mem_filter.mpr ⟨he, by simpa using hetop⟩))
  obtain ⟨e', he', rfl⟩ := List.mem_map.mp (List.argmin_mem hchosen)
  rw [List.mem_filter, decide_eq_true_eq] at he'
  obtain ⟨hopen, heligible⟩ := mem_candidates.mp he'.1
  refine ⟨if top < headroomWarnPct then .warn e'.1 top else .chose e'.1 top, e'.1, top, ?_, ?_,
    ⟨e', hopen, rfl, he'.2⟩, heligible, fun f hf hfel => ?_⟩
  · rw [pickWithBudget, hpool, hgate]
    simp only [Bool.false_eq_true, if_false, htop, Option.getD_some, hchosen]
    split <;> rfl
  · split <;> rfl
  · have hcand := mem_candidates.mpr ⟨hf, hfel⟩
    refine ⟨hmax _ (List.mem_map_of_mem hcand), fun htie => ?_⟩
    exact List.le_of_mem_argmin
      (List.mem_map_of_mem (List.mem_filter.mpr ⟨hcand, by simpa using htie⟩)) hchosen

/-- A pick stalls exactly where no slot is open. -/
theorem pickWithBudget_stall_iff {pool live : List String} {last : String → Recency}
    {headroom : List Headroom} (hpool : pool ≠ []) (hlen : headroom.length = pool.length) :
    (∃ untilAt, pickWithBudget pool last live headroom = some (.stall untilAt)) ↔
      ∀ h ∈ headroom, h.pct ≤ headroomStallPct := by
  constructor
  · rintro ⟨untilAt, hstall⟩ h hh
    by_contra hlt
    obtain ⟨i, hi, rfl⟩ := List.mem_iff_getElem.mp hh
    have hi' : i < pool.length := hlen ▸ hi
    have hopen : (pool[i], headroom[i]) ∈ openSlots pool headroom := by
      refine List.mem_filter.mpr ⟨List.mem_iff_getElem.mpr ⟨i, ?_, List.getElem_zip⟩, ?_⟩
      · rw [List.length_zip]
        omega
      · simpa using hlt
    obtain ⟨result, slot, pct, hpick, hslot, -⟩ :=
      @pickWithBudget_open pool live last headroom (List.ne_nil_of_mem hopen)
    rw [hstall] at hpick
    cases hpick
    cases hslot
  · intro hall
    have hgate : (headroom.all fun h => decide (h.pct ≤ headroomStallPct)) = true := by
      simpa using hall
    refine ⟨(headroom.filterMap (·.resetsAt)).min?, ?_⟩
    rw [pickWithBudget, List.isEmpty_eq_false_iff.mpr hpool, hgate]
    rfl

/-! ### Budgets -/

/-- A hold that a scan places on the reading's slot, until a time at which the reading is still
fresh: the headroom stays at or below the floor before then and is above it then, and the hold is
cleared exactly then. -/
def HoldExact (snap : UsageSnapshot) (now : Int) : Prop :=
  ∀ (holds : RateLimitHolds) (entries : List DirEntry) (slot : String) (until' : Int),
    (∀ e ∈ entries, jsonSlot e.name = some slot → e.Reads snap) →
    holds.rescanFromDisk entries now slot = some until' → holds slot ≠ some until' →
    snap.Fresh until' →
    (∀ t, now ≤ t → t < until' → (headroomFrom (some snap) t).pct ≤ headroomStallPct) ∧
      headroomStallPct < (headroomFrom (some snap) until').pct ∧
      ∀ t, ((holds.rescanFromDisk entries now).clearElapsed t).isHeld slot = true ↔ t < until'

/-- A pick from a pool with one headroom a slot: it stalls where every slot is at or below the
floor, and takes the eligible slot of most headroom, least recently used, otherwise. -/
def PickExact (pool live : List String) (histories : List (List ProfilePin))
    (headroom : List Headroom) : Prop :=
  pool ≠ [] → headroom.length = pool.length →
    ((∃ untilAt, pickWithBudget pool (lastUsed histories) live headroom = some (.stall untilAt)) ↔
        ∀ h ∈ headroom, h.pct ≤ headroomStallPct) ∧
      (openSlots pool headroom ≠ [] →
        ∃ result slot pct, pickWithBudget pool (lastUsed histories) live headroom = some result ∧
          result.slot? = some (slot, pct) ∧
          (∃ e ∈ openSlots pool headroom, e.1 = slot ∧ e.2.pct = pct) ∧
          Eligible pool live headroom slot ∧
          ∀ e ∈ openSlots pool headroom, Eligible pool live headroom e.1 →
            e.2.pct ≤ pct ∧ (e.2.pct = pct → lastUsed histories slot ≤ lastUsed histories e.1))

theorem holdExact_of_not_endsEarly {snap : UsageSnapshot} {now : Int}
    (h : ¬∃ a, snap.EndsEarly now a ∧ snap.Fresh a) : HoldExact snap now := by
  intro holds entries slot until' hreads hplaced hnew hfresh
  have hholds := rescan_placed hreads hplaced hnew
  have hnow := hfresh.mono hholds.2.2.le
  obtain ⟨hduring, hend⟩ := hholds.windows hnow
  refine ⟨fun t _ ht => ?_, ?_, fun t => clearElapsed_isHeld hplaced⟩
  · exact (headroomFrom_le_stall_iff (hfresh.mono ht.le)).mpr (hduring t ht)
  · by_contra hlow
    have hclosed := (headroomFrom_le_stall_iff hfresh).mp (not_lt.mp hlow)
    exact h ⟨until', hend hclosed, hfresh⟩

theorem not_holdExact_of_endsEarly {snap : UsageSnapshot} {now a : Int}
    (h : snap.EndsEarly now a) (hfresh : snap.Fresh a) : ¬HoldExact snap now := by
  intro hexact
  obtain ⟨⟨hlow, hat, hlater⟩, hclosed⟩ := h.holds hfresh
  have hslot : jsonSlot "slot.json" = some "slot" := by decide
  have hscan : RateLimitHolds.rescanFromDisk (fun _ => none)
      [⟨"slot.json", .loaded snap, .loaded snap⟩] now "slot" = some a := by
    have hentry : rescanEntry now (fun _ => none) ⟨"slot.json", .loaded snap, .loaded snap⟩ =
        RateLimitHolds.extend (fun _ => none) "slot" a :=
      rescanEntry_extends hslot (.inl rfl) hlow hat hlater
    rw [RateLimitHolds.rescanFromDisk, List.foldl_cons, List.foldl_nil, hentry]
    exact Function.update_self "slot" (some a) fun _ => none
  obtain ⟨-, habove, -⟩ := hexact (fun _ => none) _ "slot" a
    (fun e he _ => by rw [List.mem_singleton.mp he]; exact .inl rfl) hscan nofun hfresh
  have hle := (headroomFrom_le_stall_iff hfresh).mpr hclosed
  omega

/-- **A hold stands exactly while a window denies the slot, unless both windows are exhausted and
the fold takes the one that reopens first; and every pick is the one its rule names.** -/
theorem budget_exact_iff (snap : UsageSnapshot) (now : Int) (pool live : List String)
    (histories : List (List ProfilePin)) (headroom : List Headroom) :
    (HoldExact snap now ↔ ¬∃ a, snap.EndsEarly now a ∧ snap.Fresh a) ∧
      PickExact pool live histories headroom := by
  refine ⟨⟨?_, holdExact_of_not_endsEarly⟩, fun hpool hlen => ⟨?_, ?_⟩⟩
  · rintro hexact ⟨a, hearly, hfresh⟩
    exact not_holdExact_of_endsEarly hearly hfresh hexact
  · exact pickWithBudget_stall_iff hpool hlen
  · intro hopen
    exact pickWithBudget_open hopen

/-- The weekly window is rejected until 2000 and the other one at 98 % until 5000. -/
def demoExhausted : UsageSnapshot :=
  ⟨⟨some 98, some 5000, some "allowed_warning"⟩, ⟨none, some 2000, some "rejected"⟩, 1000⟩

/-- The hold ends at 2000, where the other window still denies. -/
theorem not_holdExact_demoExhausted : ¬HoldExact demoExhausted 1000 := by
  refine not_holdExact_of_endsEarly (a := 2000) (.inr (.inl ⟨by decide, ⟨by decide, ?_⟩, rfl,
    by decide, ?_⟩)) (by unfold UsageSnapshot.Fresh; decide)
  · intro a ha
    cases ha
    decide
  · intro b hb
    cases hb
    decide

end Softfig.Fleet
