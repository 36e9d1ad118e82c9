/-
ExactCover.Sudoku.Samples — puzzles to try things on, by name.

Each is chosen for a pattern that its solution runs into.
-/

namespace ExactCover.Sudoku

/-- A puzzle with a name, as nine rows. -/
structure Sample where
  name : String
  rows : List String
  deriving DecidableEq, Repr

namespace Sample

/-- Built around a hidden unique rectangle. -/
def hiddenUniqueRect : Sample where
  name := "hidden_unique_rect"
  rows := [
    "9....2...",
    ".5.869714",
    "6...3...5",
    ".24......",
    ".96.8.1..",
    "...7.6.4.",
    "....183..",
    "...3....2",
    "..9....71"]

/-- Gets to a unique rectangle after a few eliminations. -/
def uniqueRect : Sample where
  name := "unique_rect"
  rows := [
    "..6324815",
    "85.691.7.",
    "..1785...",
    "..4.3768.",
    "38..62147",
    ".6741835.",
    "...173..8",
    "...846.21",
    "..82597.."]

/-- Swordfish with a fin. -/
def swordfishWithFin : Sample where
  name := "swordfish_with_fin"
  rows := [
    "..83.9...",
    "39..57..1",
    "..71843.9",
    "23..18.76",
    "875436192",
    ".6..7..38",
    "9....3...",
    "7.684.9.3",
    "..379.6.."]

/-- Swordfish on the minimum of six cells. -/
def swordfish : Sample where
  name := "swordfish"
  rows := [
    "926...1..",
    "537.1.42.",
    "841...6.3",
    "259734816",
    "714.6..3.",
    "36812..4.",
    "1.2....84",
    "485.7136.",
    "6.3.....1"]

/-- A series of Y-Wings. -/
def yWings : Sample where
  name := "y_wings"
  rows := [
    "9..24....",
    ".5.69.231",
    ".2..5..9.",
    ".9.7..32.",
    "..29356.7",
    ".7...29..",
    ".69.2..73",
    "51..79.62",
    "2.7.86..9"]

/-- Vidar's monster #3, out of reach for logic. -/
def vidarMonster : Sample where
  name := "vidar_monster"
  rows := [
    "5..8..4..",
    ".8..9..5.",
    "..7..6..2",
    "..4..3..6",
    ".3.......",
    "9..1.....",
    "...7..8..",
    ".4..5..1.",
    "..2..1..4"]

/-- A generalized Y-Wing. -/
def genYWing : Sample where
  name := "gen_y_wing"
  rows := [
    "2...41..6",
    "4..6.2.1.",
    ".16.9...4",
    "3..12964.",
    "142.6.59.",
    ".695.4..1",
    "584216379",
    "92.4.8165",
    "6.19..482"]

/-- Just an ordinary puzzle. -/
def test : Sample where
  name := "test"
  rows := [
    ".72...68.",
    "...7.....",
    "5...16...",
    "....281..",
    "2..371..6",
    "..456....",
    "...13...4",
    ".....7...",
    ".15...89."]

/-- X-Wings. -/
def xWings : Sample where
  name := "x_wings"
  rows := [
    ".......94",
    "76.91..5.",
    ".9...2.81",
    ".7..5..1.",
    "...7.9...",
    ".8..31.67",
    "24.1...7.",
    ".1..9..45",
    "9.....1.."]

/-- An XYZ-Wing. -/
def xyzWing : Sample where
  name := "xyz_wing"
  rows := [
    ".9578264.",
    "..2631589",
    "6.85497.2",
    "2.9...36.",
    "..62..9..",
    ".5.96.128",
    "9.3.264..",
    ".2..9.8.6",
    ".6...729."]

/-- All samples. -/
def all : List Sample :=
  [hiddenUniqueRect, uniqueRect, swordfishWithFin, swordfish, yWings, vidarMonster, genYWing, test,
    xWings, xyzWing]

/-- The sample of that name. -/
def ofName? (name : String) : Option Sample := all.find? fun s => s.name == name

end Sample

end ExactCover.Sudoku
