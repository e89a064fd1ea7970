import XdrText.Text.Decimal

/-!
# XdrText — dates

A time in seconds since the beginning of 1970 is followed by its date in the zone of the machine,
as in ` (Thu Jan  1 00:00:01 +00:00 1970)`.  How a zone tells the time is left open, but it takes
one line.  In UTC days are counted in the proleptic Gregorian calendar.
-/

namespace XdrText.Form
open XdrText.Text

/-- A time zone: how the times after the beginning of 1970 are told there. -/
structure Zone where
  /-- The date and the clock of a time; nothing for a time that is beyond the calendar. -/
  told? : UInt64 → Option (List Char)
  /-- They stand on one line. -/
  noFeed : ∀ {t : UInt64} {date : List Char}, told? t = some date → '\n' ∉ date

namespace Date

/-- A date of the calendar. -/
structure Civil where
  year : Nat
  month : Nat
  day : Nat
  deriving DecidableEq, Repr

/-- The date of a day counted from 1 January 1970.  Years are counted from March, in eras of 400,
so that the leap day is the last of its year; 719468 days lie between 1 March of year 0 and the
beginning of 1970. -/
def Civil.ofDay (n : Nat) : Civil :=
  let z := n + 719468
  let era := z / 146097
  let dayOfEra := z % 146097
  let yearOfEra := (dayOfEra - dayOfEra / 1460 + dayOfEra / 36524 - dayOfEra / 146096) / 365
  let dayOfYear := dayOfEra - (365 * yearOfEra + yearOfEra / 4 - yearOfEra / 100)
  let m := (5 * dayOfYear + 2) / 153
  let month := if m < 10 then m + 3 else m - 9
  { year := era * 400 + yearOfEra + (if month ≤ 2 then 1 else 0)
    month
    day := dayOfYear - (153 * m + 2) / 5 + 1 }

def weekdays : List String := ["Thu", "Fri", "Sat", "Sun", "Mon", "Tue", "Wed"]

def months : List String :=
  ["Jan", "Feb", "Mar", "Apr", "May", "Jun", "Jul", "Aug", "Sep", "Oct", "Nov", "Dec"]

/-- The last second that has a date: the end of the year 262142. -/
def lastSecond : Nat := 8210266876799

/-- Hours, minutes and seconds at a second of the day. -/
def clock (second : Nat) : List Char :=
  Decimal.padded 2 (second / 3600) ++ [':'] ++ Decimal.padded 2 (second / 60 % 60) ++ [':'] ++
    Decimal.padded 2 (second % 60)

/-- The name of the month and the day of it, in two places. -/
def Civil.monthDay (c : Civil) : List Char :=
  let day := Decimal.ofNat c.day
  (months.getD (c.month - 1) "").toList ++ [' '] ++ List.replicate (2 - day.length) ' ' ++ day

/-- A year of more than four digits has a sign. -/
def Civil.yearText (c : Civil) : List Char :=
  (if 9999 < c.year then ['+'] else []) ++ Decimal.padded 4 c.year

/-- What the second `t` is in UTC, as in `Thu Jan  1 00:00:01 +00:00 1970`. -/
def told (t : Nat) : List Char :=
  let civil := Civil.ofDay (t / 86400)
  (weekdays.getD (t / 86400 % 7) "").toList ++ [' '] ++ civil.monthDay ++ [' '] ++
    clock (t % 86400) ++ " +00:00 ".toList ++ civil.yearText

theorem noFeed_getD (words : List String) (h : ∀ w ∈ words, '\n' ∉ w.toList) (i : Nat) :
    '\n' ∉ (words.getD i "").toList := by
  rw [List.getD_eq_getElem?_getD]
  cases hi : words[i]? with
  | none => simp
  | some w => exact h w (List.mem_of_getElem? hi)

theorem noFeed_clock (second : Nat) : '\n' ∉ clock second := by
  simp only [clock, List.mem_append, not_or]
  exact ⟨⟨⟨⟨Decimal.noFeed_padded, by decide⟩, Decimal.noFeed_padded⟩, by decide⟩,
    Decimal.noFeed_padded⟩

theorem Civil.noFeed_monthDay (c : Civil) : '\n' ∉ c.monthDay := by
  simp only [monthDay, List.mem_append, not_or]
  exact ⟨⟨⟨noFeed_getD months (by decide) _, by decide⟩,
    fun h => absurd (List.eq_of_mem_replicate h) (by decide)⟩, Decimal.noFeed_ofNat⟩

theorem Civil.noFeed_yearText (c : Civil) : '\n' ∉ c.yearText := by
  simp only [yearText, List.mem_append, not_or]
  exact ⟨by split <;> decide, Decimal.noFeed_padded⟩

theorem noFeed_told (t : Nat) : '\n' ∉ told t := by
  simp only [told, List.mem_append, not_or]
  exact ⟨⟨⟨⟨⟨⟨noFeed_getD weekdays (by decide) _, by decide⟩, Civil.noFeed_monthDay _⟩, by decide⟩,
    noFeed_clock _⟩, by decide⟩, Civil.noFeed_yearText _⟩

end Date

/-- The zone without an offset, up to `Date.lastSecond`. -/
def Zone.utc : Zone where
  told? t := if t.toNat ≤ Date.lastSecond then some (Date.told t.toNat) else none
  noFeed h := Option.some.inj (Option.ite_none_right_eq_some.mp h).2 ▸ Date.noFeed_told _

namespace Date

/-- The date of a time, in parentheses; nothing for a time that is not positive as a signed number
and for one that the zone does not tell. -/
def comment (time : UInt64) (zone : Zone := .utc) : List Char :=
  if time.toInt64 ≤ 0 then []
  else
    match zone.told? time with
    | none => []
    | some date => " (".toList ++ date ++ [')']

/-- The date behind a time stays on its line, begins with a blank and ends in a parenthesis. -/
theorem comment_spec (t : UInt64) (zone : Zone) :
    '\n' ∉ comment t zone ∧ (∀ c, (comment t zone).head? = some c → c = ' ') ∧
      ∀ c, (comment t zone).getLast? = some c → c = ')' := by
  rw [comment]
  split
  next => simp
  next =>
    cases told : zone.told? t with
    | none => simp
    | some date =>
        refine ⟨?_, fun c hc => ?_, fun c hc => ?_⟩
        · simp only [List.mem_append, not_or]
          exact ⟨⟨by decide, zone.noFeed told⟩, by decide⟩
        · cases hc
          rfl
        · rw [List.getLast?_concat] at hc
          cases hc
          rfl

end Date

end XdrText.Form
