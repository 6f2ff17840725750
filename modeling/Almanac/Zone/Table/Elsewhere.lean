import Almanac.Zone.Era

/-!
# Zones of Africa, Antarctica and Europe, and universal time

Single changes give the instant and the offset from there on, in seconds. Yearly rules give the
month, the Sunday, the seconds after its midnight, and the offset from there on.
-/

namespace Almanac.Zone.Table

/-- UTC. -/
def utc : Zone :=
  Zone.fixed 0

/-- Etc/GMT+12. -/
def dateLineWest : Zone :=
  Zone.fixed (-43200)

/-- Africa/Monrovia. -/
def monrovia : Zone :=
  Zone.ofEras (-2588)
    [.changes [(-2776979812, -2588), (-1604359012, -2670), (63593070, 0)]]

/-- Antarctica/Casey. -/
def casey : Zone :=
  Zone.ofEras 0
    [.changes [(-31536000, 28800), (1255802400, 39600), (1267714800, 28800), (1319738400, 39600),
        (1329843600, 28800), (1477065600, 39600), (1520701200, 28800), (1538856000, 39600),
        (1552752000, 28800), (1570129200, 39600), (1583596800, 28800), (1601740860, 39600),
        (1615640400, 28800), (1633190460, 39600), (1647090000, 28800), (1664640060, 39600),
        (1678291200, 28800)]]

/-- Antarctica/Troll. -/
def troll : Zone :=
  Zone.ofEras 0
    [.changes [(1108166400, 0)],
      .yearly 2005 2099 [⟨3, .last, 3600, 7200⟩, ⟨10, .last, 3600, 0⟩]]

/-- Europe/Berlin. -/
def berlin : Zone :=
  Zone.ofEras 3208
    [.changes [(-2422054408, 3600), (-1693706400, 7200), (-1680483600, 3600), (-1663455600, 7200),
        (-1650150000, 3600), (-1632006000, 7200), (-1618700400, 3600), (-938905200, 7200),
        (-857257200, 3600), (-844556400, 7200), (-828226800, 3600), (-812502000, 7200),
        (-796777200, 3600), (-781052400, 7200), (-776563200, 10800), (-765936000, 7200),
        (-761180400, 3600), (-748479600, 7200), (-733273200, 3600), (-717631200, 7200),
        (-714610800, 10800), (-710380800, 7200), (-701910000, 3600), (-684975600, 7200),
        (-670460400, 3600), (-654130800, 7200), (-639010800, 3600), (323830800, 7200),
        (338950800, 3600)],
      .yearly 1981 1995 [⟨3, .last, 3600, 7200⟩, ⟨9, .last, 3600, 3600⟩],
      .yearly 1996 2099 [⟨3, .last, 3600, 7200⟩, ⟨10, .last, 3600, 3600⟩]]

end Almanac.Zone.Table
