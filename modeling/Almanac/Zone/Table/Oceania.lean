import Almanac.Zone.Era

/-!
# Zones of Australia and the Pacific

Single changes give the instant and the offset from there on, in seconds. Yearly rules give the
month, the Sunday, the seconds after its midnight, and the offset from there on.
-/

namespace Almanac.Zone.Table

/-- Pacific/Fakaofo. -/
def fakaofo : Zone :=
  Zone.ofEras (-41096)
    [.changes [(-2177411704, -39600), (1325242800, 46800)]]

/-- Pacific/Kwajalein. -/
def kwajalein : Zone :=
  Zone.ofEras 40160
    [.changes [(-2177492960, 39600), (-1041418800, 36000), (-907408800, 32400), (-817462800, 39600),
        (-7988400, -43200), (745934400, 43200)]]

/-- Pacific/Apia. -/
def apia : Zone :=
  Zone.ofEras 45184
    [.changes [(-2445424384, -41216), (-1861878784, -41400), (-631110600, -39600),
        (1285498800, -36000), (1301752800, -39600), (1316872800, -36000), (1325239200, 50400)],
      .yearly 2012 2020 [⟨4, .first, -36000, 46800⟩, ⟨9, .last, -36000, 50400⟩],
      .changes [(1617458400, 46800)]]

/-- Australia/Lord_Howe. -/
def lordHowe : Zone :=
  Zone.ofEras 38180
    [.changes [(-2364114980, 36000), (352216800, 37800), (372785400, 41400)],
      .yearly 1982 1984 [⟨3, .first, -34200, 37800⟩, ⟨10, .last, -30600, 41400⟩],
      .changes [(478621800, 37800), (499188600, 39600), (511282800, 37800), (530033400, 39600)],
      .yearly 1987 1989 [⟨3, .third, -32400, 37800⟩, ⟨10, .last, -30600, 39600⟩],
      .yearly 1990 1995 [⟨3, .first, -32400, 37800⟩, ⟨10, .last, -30600, 39600⟩],
      .yearly 1996 1999 [⟨3, .last, -32400, 37800⟩, ⟨10, .last, -30600, 39600⟩],
      .changes [(953996400, 37800), (967303800, 39600)],
      .yearly 2001 2005 [⟨3, .last, -32400, 37800⟩, ⟨10, .last, -30600, 39600⟩],
      .changes [(1143903600, 37800), (1162049400, 39600), (1174748400, 37800), (1193499000, 39600)],
      .yearly 2008 2099 [⟨4, .first, -32400, 37800⟩, ⟨10, .first, -30600, 39600⟩]]

/-- Australia/Sydney. -/
def sydney : Zone :=
  Zone.ofEras 36292
    [.changes [(-2364113092, 36000), (-1672560000, 39600), (-1665388800, 36000),
        (-883641600, 39600), (-876124800, 36000), (-860400000, 39600), (-844675200, 36000),
        (-828345600, 39600), (-813225600, 36000), (57686400, 39600), (67968000, 36000),
        (89136000, 39600)],
      .yearly 1973 1981 [⟨3, .first, -28800, 36000⟩, ⟨10, .last, -28800, 39600⟩],
      .changes [(386697600, 36000), (404841600, 39600)],
      .yearly 1983 1985 [⟨3, .first, -28800, 36000⟩, ⟨10, .last, -28800, 39600⟩],
      .changes [(511286400, 36000), (530035200, 39600)],
      .yearly 1987 1989 [⟨3, .third, -28800, 36000⟩, ⟨10, .last, -28800, 39600⟩],
      .yearly 1990 1995 [⟨3, .first, -28800, 36000⟩, ⟨10, .last, -28800, 39600⟩],
      .yearly 1996 1999 [⟨3, .last, -28800, 36000⟩, ⟨10, .last, -28800, 39600⟩],
      .changes [(954000000, 36000), (967305600, 39600)],
      .yearly 2001 2005 [⟨3, .last, -28800, 36000⟩, ⟨10, .last, -28800, 39600⟩],
      .changes [(1143907200, 36000), (1162051200, 39600), (1174752000, 36000), (1193500800, 39600)],
      .yearly 2008 2099 [⟨4, .first, -28800, 36000⟩, ⟨10, .first, -28800, 39600⟩]]

end Almanac.Zone.Table
