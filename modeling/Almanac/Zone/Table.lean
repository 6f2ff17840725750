import Almanac.Zone.Table.Americas
import Almanac.Zone.Table.Asia
import Almanac.Zone.Table.Elsewhere
import Almanac.Zone.Table.Oceania

/-!
# The table of zones

The zones that are known by an identifier. Identifiers are case-sensitive.
-/

namespace Almanac.Zone

/-- The zones by identifier. Two identifiers may name one zone. -/
def table : List (String × Zone) :=
  [("UTC", Table.utc), ("Etc/GMT+12", Table.dateLineWest), ("Asia/Tokyo", Table.tokyo),
    ("Asia/Dhaka", Table.dhaka), ("Asia/Kolkata", Table.kolkata),
    ("Asia/Kathmandu", Table.kathmandu), ("Asia/Pyongyang", Table.pyongyang),
    ("Asia/Singapore", Table.singapore), ("Asia/Manila", Table.manila),
    ("Africa/Monrovia", Table.monrovia), ("America/Caracas", Table.caracas),
    ("Antarctica/Casey", Table.casey), ("Pacific/Fakaofo", Table.fakaofo),
    ("Pacific/Kwajalein", Table.kwajalein), ("Pacific/Apia", Table.apia),
    ("America/Sao_Paulo", Table.saoPaulo), ("Antarctica/Troll", Table.troll),
    ("Australia/Lord_Howe", Table.lordHowe), ("Australia/Sydney", Table.sydney),
    ("Europe/Berlin", Table.berlin), ("America/New_York", Table.newYork),
    ("America/Los_Angeles", Table.losAngeles), ("US/Eastern", Table.newYork)]

/-- The zone with an identifier. -/
def find? (id : String) : Option Zone := table.lookup id

end Almanac.Zone
