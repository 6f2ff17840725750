import Almanac.Zone.Era

/-!
# Zones of Asia

Single changes give the instant and the offset from there on, in seconds. Yearly rules give the
month, the Sunday, the seconds after its midnight, and the offset from there on.
-/

namespace Almanac.Zone.Table

/-- Asia/Tokyo. -/
def tokyo : Zone :=
  Zone.ofEras 33539
    [.changes [(-2587712400, 32400), (-683802000, 36000), (-672310800, 32400), (-654771600, 36000),
        (-640861200, 32400), (-620298000, 36000), (-609411600, 32400), (-588848400, 36000),
        (-577962000, 32400)]]

/-- Asia/Dhaka. -/
def dhaka : Zone :=
  Zone.ofEras 21700
    [.changes [(-2524543300, 21200), (-891582800, 23400), (-872058600, 19800), (-862637400, 23400),
        (-576138600, 21600), (1245430800, 25200), (1262278800, 21600)]]

/-- Asia/Kolkata. -/
def kolkata : Zone :=
  Zone.ofEras 21208
    [.changes [(-3645237208, 21200), (-3155694800, 19270), (-2019705670, 19800),
        (-891581400, 23400), (-872058600, 19800), (-862637400, 23400), (-764145000, 19800)]]

/-- Asia/Kathmandu. -/
def kathmandu : Zone :=
  Zone.ofEras 20476
    [.changes [(-1577943676, 19800), (504901800, 20700)]]

/-- Asia/Pyongyang. -/
def pyongyang : Zone :=
  Zone.ofEras 30180
    [.changes [(-1948782180, 30600), (-1830414600, 32400), (-768646800, 32400), (1439564400, 30600),
        (1525446000, 32400)]]

/-- Asia/Singapore. -/
def singapore : Zone :=
  Zone.ofEras 24925
    [.changes [(-2177477725, 24925), (-2038200925, 25200), (-1167634800, 26400),
        (-1073028000, 26400), (-894180000, 27000), (-879665400, 32400), (-767005200, 27000),
        (378662400, 28800)]]

/-- Asia/Manila. -/
def manila : Zone :=
  Zone.ofEras (-57368)
    [.changes [(-3944621032, 29032), (-2219083200, 28800), (-1046678400, 32400),
        (-1040115600, 28800), (-885024000, 32400), (-880016400, 32400), (-783594000, 32400),
        (-760093200, 28800), (-496224000, 32400), (-491562000, 28800), (228326400, 32400),
        (243702000, 28800), (643219200, 32400), (649177200, 28800)]]

end Almanac.Zone.Table
