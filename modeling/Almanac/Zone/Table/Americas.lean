import Almanac.Zone.Era

/-!
# Zones of the Americas

Single changes give the instant and the offset from there on, in seconds. Yearly rules give the
month, the Sunday, the seconds after its midnight, and the offset from there on.
-/

namespace Almanac.Zone.Table

/-- America/Caracas. -/
def caracas : Zone :=
  Zone.ofEras (-16064)
    [.changes [(-2524505536, -16060), (-1826739140, -16200), (-157750200, -14400),
        (1197183600, -16200), (1462086000, -14400)]]

/-- America/Sao_Paulo. -/
def saoPaulo : Zone :=
  Zone.ofEras (-11188)
    [.changes [(-1767214412, -10800), (-1206957600, -7200), (-1191362400, -10800),
        (-1175374800, -7200), (-1159826400, -10800), (-633819600, -7200), (-622069200, -10800),
        (-602283600, -7200), (-591832800, -10800), (-570747600, -7200), (-560210400, -10800),
        (-539125200, -7200), (-531352800, -10800), (-195426000, -7200), (-184197600, -10800),
        (-155163600, -7200), (-150069600, -10800), (-128898000, -7200), (-121125600, -10800),
        (-99954000, -7200), (-89589600, -10800), (-68418000, -7200), (-57967200, -10800),
        (499748400, -7200), (511236000, -10800), (530593200, -7200), (540266400, -10800),
        (562129200, -7200), (571197600, -10800), (592974000, -7200), (602042400, -10800),
        (624423600, -7200), (634701600, -10800), (656478000, -7200), (666756000, -10800),
        (687927600, -7200), (697600800, -10800), (719982000, -7200), (728445600, -10800),
        (750826800, -7200), (761709600, -10800), (782276400, -7200), (793159200, -10800),
        (813726000, -7200), (824004000, -10800), (844570800, -7200), (856058400, -10800),
        (876106800, -7200), (888717600, -10800), (908074800, -7200), (919562400, -10800),
        (938919600, -7200), (951616800, -10800), (970974000, -7200), (982461600, -10800),
        (1003028400, -7200), (1013911200, -10800), (1036292400, -7200), (1045360800, -10800),
        (1066532400, -7200), (1076810400, -10800), (1099364400, -7200), (1108864800, -10800),
        (1129431600, -7200), (1140314400, -10800), (1162695600, -7200), (1172368800, -10800),
        (1192330800, -7200)],
      .yearly 2008 2011 [⟨2, .third, 7200, -10800⟩, ⟨10, .third, 10800, -7200⟩],
      .changes [(1330221600, -10800), (1350788400, -7200), (1361066400, -10800),
        (1382238000, -7200), (1392516000, -10800), (1413687600, -7200), (1424570400, -10800),
        (1445137200, -7200), (1456020000, -10800), (1476586800, -7200), (1487469600, -10800),
        (1508036400, -7200), (1518919200, -10800), (1541300400, -7200), (1550368800, -10800)]]

/-- America/New_York. -/
def newYork : Zone :=
  Zone.ofEras (-17762)
    [.changes [(-2717650800, -18000)],
      .yearly 1918 1920 [⟨3, .last, 25200, -14400⟩, ⟨10, .last, 21600, -18000⟩],
      .yearly 1921 1941 [⟨4, .last, 25200, -14400⟩, ⟨9, .last, 21600, -18000⟩],
      .changes [(-880218000, -14400), (-769395600, -14400), (-765396000, -18000)],
      .yearly 1946 1954 [⟨4, .last, 25200, -14400⟩, ⟨9, .last, 21600, -18000⟩],
      .yearly 1955 1973 [⟨4, .last, 25200, -14400⟩, ⟨10, .last, 21600, -18000⟩],
      .changes [(126687600, -14400), (152085600, -18000), (162370800, -14400), (183535200, -18000)],
      .yearly 1976 1986 [⟨4, .last, 25200, -14400⟩, ⟨10, .last, 21600, -18000⟩],
      .yearly 1987 2006 [⟨4, .first, 25200, -14400⟩, ⟨10, .last, 21600, -18000⟩],
      .yearly 2007 2099 [⟨3, .second, 25200, -14400⟩, ⟨11, .first, 21600, -18000⟩]]

/-- America/Los_Angeles. -/
def losAngeles : Zone :=
  Zone.ofEras (-28378)
    [.changes [(-2717640000, -28800), (-1633269600, -25200), (-1615129200, -28800),
        (-1601820000, -25200), (-1583679600, -28800), (-880207200, -25200), (-769395600, -25200),
        (-765385200, -28800), (-687967140, -25200), (-662655600, -28800)],
      .yearly 1950 1961 [⟨4, .last, 32400, -25200⟩, ⟨9, .last, 32400, -28800⟩],
      .yearly 1962 1966 [⟨4, .last, 32400, -25200⟩, ⟨10, .last, 32400, -28800⟩],
      .yearly 1967 1973 [⟨4, .last, 36000, -25200⟩, ⟨10, .last, 32400, -28800⟩],
      .changes [(126698400, -25200), (152096400, -28800), (162381600, -25200), (183546000, -28800)],
      .yearly 1976 1986 [⟨4, .last, 36000, -25200⟩, ⟨10, .last, 32400, -28800⟩],
      .yearly 1987 2006 [⟨4, .first, 36000, -25200⟩, ⟨10, .last, 32400, -28800⟩],
      .yearly 2007 2099 [⟨3, .second, 36000, -25200⟩, ⟨11, .first, 32400, -28800⟩]]

end Almanac.Zone.Table
